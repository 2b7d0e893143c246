/-
`flash_image`: an image goes to a partition in two passes.  The first pass
writes everything with the header zeroed, the second one rewrites the first
block with the header in place, so that a run that was cut off leaves no
partition with the new header and old data behind it.
-/
import MetaOS.MtdAborts
import MetaOS.MtdReader
import MetaOS.MtdWriter

namespace MetaOS

namespace FlashImage

open Mtd

/-- `HEADER_SIZE`. -/
@[irreducible] def headerSize : Nat := 2048

inductive Outcome where
  | headerSame
  | flashed
  | died (message : String)
deriving DecidableEq, Repr

section Program

variable (part : Partition)

/-- Does the partition start with the header?  An error when reading it means
that it needs re-writing. -/
def checkHeader (header : Bytes) : MtdProg Bool := do
  match ← mtdReadPartition part with
  | none => pure false
  | some ctx =>
      let (check, _) ← mtdReadData part ctx headerSize
      if check = some header then pure true
      else
        let _ ← closeDevice
        pure false

/-- The rest of the file, `HEADER_SIZE` bytes at a time. -/
def copyFile (ptn : String) : (fuel : Nat) → WriteContext → Bytes →
    MtdProg (Except String WriteContext)
  | 0, ctx, _ => pure (.ok ctx)
  | fuel + 1, ctx, unread => do
      if unread = [] then pure (.ok ctx)
      else
        let (ok, ctx) ← mtdWriteData part ctx (unread.take headerSize)
        if ok then copyFile ptn fuel ctx (unread.drop headerSize)
        else pure (.error ("error writing " ++ ptn))

/-- Skip the header, write everything else. -/
def firstPass (ptn : String) (img : Bytes) : MtdProg (Except String Unit) := do
  let header := img.take headerSize
  match ← mtdWritePartition with
  | none => pure (.error ("error writing " ++ ptn))
  | some ctx =>
      let (ok, ctx) ← mtdWriteData part ctx (List.replicate header.length 0)
      if ok then
        let unread := img.drop headerSize
        match ← copyFile part ptn unread.length ctx unread with
        | .error message => pure (.error message)
        | .ok ctx =>
            if ← mtdWriteClose part ctx then pure (.ok ())
            else pure (.error ("error closing " ++ ptn))
      else pure (.error ("error writing " ++ ptn))

/-- What is left of a block behind the header: `block_size - headerlen`, with
`block_size` added while that is negative. -/
def leftInBlock (headerlen : Nat) : Nat :=
  if headerlen ≤ part.eraseSize then part.eraseSize - headerlen
  else (((part.eraseSize : Int) - headerlen) % part.eraseSize).toNat

/-- The rest of the first block. -/
def copyBlock (ptn file : String) : (fuel left : Nat) → WriteContext → Bytes →
    MtdProg (Except String WriteContext)
  | 0, _, ctx, _ => pure (.ok ctx)
  | fuel + 1, left, ctx, unread => do
      if left = 0 then pure (.ok ctx)
      else
        let buf := unread.take (min headerSize left)
        if buf = [] then pure (.error ("error reading " ++ file))
        else
          let (ok, ctx) ← mtdWriteData part ctx buf
          if ok then
            copyBlock ptn file fuel (left - buf.length) ctx
              (unread.drop buf.length)
          else pure (.error ("error writing " ++ ptn))

/-- Come back and write the header last. -/
def secondPass (ptn file : String) (img : Bytes) :
    MtdProg (Except String Unit) := do
  let header := img.take headerSize
  match ← mtdWritePartition with
  | none => pure (.error ("error re-opening " ++ ptn))
  | some ctx =>
      let (ok, ctx) ← mtdWriteData part ctx header
      if ok then
        let left := leftInBlock part header.length
        match ← copyBlock part ptn file left left ctx
            (img.drop headerSize) with
        | .error message => pure (.error message)
        | .ok ctx =>
            if ← mtdWriteClose part ctx then pure (.ok ())
            else pure (.error ("error closing " ++ ptn))
      else pure (.error ("error re-writing " ++ ptn))

/-- `main`, from the point where the partition `ptn` is found and the image
`file` is open. -/
def flashImage (ptn file : String) (img : Bytes) : MtdProg Outcome := do
  let header := img.take headerSize
  if header = [] then pure (.died ("error reading " ++ file ++ " header"))
  else if ← checkHeader part header then pure .headerSame
  else
    match ← firstPass part ptn img with
    | .error message => pure (.died message)
    | .ok _ =>
        match ← secondPass part ptn file img with
        | .error message => pure (.died message)
        | .ok _ => pure .flashed

end Program

variable {part : Partition}

/-- A partition without faults; the file descriptor may fail. -/
abbrev calls (part : Partition) : Prog.Semantics Call Answer Device :=
  (Flash.faultFree part).answers

theorem safe_call_of {α : Type} {inv : Device → Prop}
    {post : α → Device → Prop} {c : Call} {next : Answer c → MtdProg α}
    {dev : Device} (hno : ∀ r, ¬ c.Fails r) (hinv : inv dev)
    (hnext : Prog.Safe (calls part) inv post
      (next ((Flash.faultFree part).handler c dev).1)
      ((Flash.faultFree part).handler c dev).2) :
    Prog.Safe (calls part) inv post (.call c next) dev := by
  refine ⟨hinv, fun r after happ => ?_⟩
  rcases happ with hsame | ⟨hfail, -⟩
  · rw [← hsame] at hnext
    exact hnext
  · exact absurd hfail (hno r)

/-- A block that was erased. -/
def Erased (part : Partition) (block : Block) : Prop :=
  block.content = List.replicate part.eraseSize 255

/-- `blocks` stand at the start of the partition, the rest is as in `start`. -/
structure Laid (part : Partition) (start : Nat → Block) (blocks : List Bytes)
    (now : Nat → Block) : Prop where
  written : ∀ i block, blocks[i]? = some block →
    (now (i * part.eraseSize)).content = block
  kept : ∀ q, (∀ i < blocks.length, q ≠ i * part.eraseSize) →
    (now q).content = (start q).content

theorem Laid.nil (start : Nat → Block) : Laid part start [] start :=
  ⟨by simp, fun _ _ => rfl⟩

theorem Laid.append {start now : Nat → Block} {blocks : List Bytes}
    (hlaid : Laid part start blocks now) {data : Bytes} {full : Block}
    (hfull : full.content = data) :
    Laid part start (blocks ++ [data])
      (Function.update now (blocks.length * part.eraseSize) full) := by
  have hsize := part.eraseSize_pos
  constructor
  · intro i block hblock
    rcases Nat.lt_trichotomy i blocks.length with hlt | rfl | hgt
    · have hne : i * part.eraseSize ≠ blocks.length * part.eraseSize :=
        fun heq => hlt.ne (Nat.eq_of_mul_eq_mul_right hsize heq)
      rw [List.getElem?_append_left hlt] at hblock
      rw [Function.update_of_ne hne]
      exact hlaid.written i block hblock
    · rw [List.getElem?_concat_length] at hblock
      rw [Function.update_self, hfull]
      exact Option.some.inj hblock
    · rw [List.getElem?_eq_none (by simp; omega)] at hblock
      cases hblock
  · intro q hq
    rw [List.length_append, List.length_singleton] at hq
    rw [Function.update_of_ne (hq _ (Nat.lt_succ_self _))]
    exact hlaid.kept q fun i hi => hq i (by omega)

/-- Whatever prefix of `stream` has reached the flash, and whether or not the
next block has been erased already, `holds` is true of the flash. -/
structure Endures (part : Partition) (start : Nat → Block) (stream : Bytes)
    (holds : (Nat → Block) → Prop) : Prop where
  laid : ∀ {blocks now}, (∀ block ∈ blocks, block.length = part.eraseSize) →
    blocks.flatten <+: stream → Laid part start blocks now → holds now
  torn : ∀ {blocks now block} {data : Bytes},
    (∀ block ∈ blocks, block.length = part.eraseSize) →
    data.length = part.eraseSize → blocks.flatten ++ data <+: stream →
    Laid part start blocks now → Erased part block →
    holds (Function.update now (blocks.length * part.eraseSize) block)

theorem Endures.start {start : Nat → Block} {stream : Bytes}
    {holds : (Nat → Block) → Prop}
    (hendures : Endures part start stream holds) : holds start := by
  have hnone : ∀ block ∈ ([] : List Bytes),
      block.length = part.eraseSize := by
    simp
  exact hendures.laid hnone List.nil_prefix (Laid.nil start)

/-- The writer has put `blocks` on flash and stands behind them. -/
structure At (part : Partition) (start : Nat → Block) (blocks : List Bytes)
    (dev : Device) : Prop where
  full : ∀ block ∈ blocks, block.length = part.eraseSize
  laid : Laid part start blocks dev.block
  filePos : dev.filePos = blocks.length * part.eraseSize

/-- The writer has taken over `taken`: complete blocks are on flash, the rest
is pending. -/
def Taken (part : Partition) (start : Nat → Block) (taken : Bytes)
    (ctx : WriteContext) (dev : Device) : Prop :=
  ∃ blocks, At part start blocks dev ∧ blocks.flatten ++ ctx.pending = taken ∧
    ctx.pending.length < part.eraseSize

theorem Taken.holds {start : Nat → Block} {stream taken : Bytes}
    {holds : (Nat → Block) → Prop} {ctx : WriteContext} {dev : Device}
    (htaken : Taken part start taken ctx dev)
    (hendures : Endures part start stream holds)
    (hstream : taken <+: stream) : holds dev.block := by
  obtain ⟨blocks, hat, rfl, -⟩ := htaken
  exact hendures.laid hat.full ((List.prefix_append _ _).trans hstream)
    hat.laid

section Writing

variable {start : Nat → Block} {stream : Bytes} {holds : (Nat → Block) → Prop}

/-- The first attempt on a block succeeds. -/
theorem safe_writeAttempts {pos : Nat} {data : Bytes} {dev : Device}
    (retries : Nat) (hdata : data.length = part.eraseSize)
    (hnow : holds dev.block)
    (herased : ∀ block, Erased part block →
      holds (Function.update dev.block pos block))
    (hfull : ∀ block : Block, block.content = data →
      holds (Function.update dev.block pos block)) :
    Prog.Safe (calls part) (fun dev => holds dev.block)
      (fun ok dev' => ok = true ∧ dev'.filePos = pos + part.eraseSize ∧
        ∃ block : Block, block.content = data ∧
          dev'.block = Function.update dev.block pos block)
      (writeAttempts part pos data (retries + 1)) dev := by
  have hprogram := program_erased hdata
  obtain ⟨full, hcontent, hprogrammed⟩ : ∃ full : Block, full.content = data ∧
      (Flash.faultFree part).programmed pos
        ((Flash.faultFree part).erased pos (dev.block pos)) data = full :=
    ⟨_, hprogram, rfl⟩
  rw [writeAttempts]
  refine safe_call_of (fun _ => id) hnow ?_
  refine safe_call_of (fun _ => id) (herased _ rfl) ?_
  refine safe_call_of (fun _ => id) (herased _ rfl) ?_
  simp only [Flash.handler, Function.update_self, Function.update_idem,
    hprogrammed]
  refine safe_call_of (fun _ => id) (hfull _ hcontent) ?_
  refine safe_call_of (fun _ => id) (hfull _ hcontent) ?_
  simp only [Flash.handler, Flash.faultFree, Function.update_self, hcontent,
    hdata, if_true, Option.isSome_some, Prog.bind]
  exact ⟨hfull _ hcontent, rfl, rfl, full, hcontent, rfl⟩

variable (hendures : Endures part start stream holds)
include hendures

/-- `write_block` puts one more block on flash. -/
theorem safe_writeBlock (ctx : WriteContext) {data : Bytes}
    {blocks : List Bytes} {dev : Device} (hat : At part start blocks dev)
    (hdata : data.length = part.eraseSize)
    (hstream : blocks.flatten ++ data <+: stream) :
    Prog.Safe (calls part) (fun dev => holds dev.block)
      (fun r dev' => r.1 = true → r.2 = ctx ∧
        At part start (blocks ++ [data]) dev')
      (writeBlock part ctx data) dev := by
  have hfirst : blocks.flatten <+: stream :=
    (List.prefix_append _ _).trans hstream
  have hnow : holds dev.block := hendures.laid hat.full hfirst hat.laid
  have hblocks : ∀ block ∈ blocks ++ [data],
      block.length = part.eraseSize := by
    intro block hmem
    rcases List.mem_append.mp hmem with hold | hnew
    · exact hat.full block hold
    · rw [List.mem_singleton.mp hnew, hdata]
  have hflatten : (blocks ++ [data]).flatten = blocks.flatten ++ data := by
    simp
  refine ⟨hnow, fun r after happ => ?_⟩
  rcases happ with hsame | ⟨hfail, rfl⟩
  · obtain ⟨hr, hafter⟩ := Prod.mk.inj hsame
    rw [hr, hafter]
    change Prog.Safe _ _ _ (writeBlockLoop part data
      (part.blocksFrom dev.filePos) dev.filePos ctx) dev
    cases part.blocksFrom dev.filePos with
    | zero => exact ⟨hnow, fun hok => absurd hok (by simp)⟩
    | succ count =>
        rw [writeBlockLoop]
        refine safe_call_of (fun _ => id) hnow ?_
        simp only [Flash.handler, Flash.faultFree, Prog.bind, gt_iff_lt,
          lt_irrefl, if_false]
        refine Prog.Safe.bind (safe_writeAttempts 1 hdata hnow ?_ ?_) ?_
        · intro block herased
          rw [hat.filePos]
          exact hendures.torn hat.full hdata hstream hat.laid herased
        · intro block hcontent
          rw [hat.filePos]
          exact hendures.laid hblocks (hflatten ▸ hstream)
            (hat.laid.append hcontent)
        · rintro ok after hinv ⟨rfl, hpos, block, hcontent, hafter⟩
          refine ⟨hinv, fun _ => ⟨rfl, hblocks, ?_, ?_⟩⟩
          · rw [hafter, hat.filePos]
            exact hat.laid.append hcontent
          · rw [hpos, hat.filePos, List.length_append, List.length_singleton,
              Nat.add_mul, Nat.one_mul]
  · cases hfail
    exact ⟨hnow, fun hok => absurd hok (by simp)⟩

theorem safe_writeDirect (count : Nat) {data : Bytes} {blocks : List Bytes}
    {ctx : WriteContext} {dev : Device} (hat : At part start blocks dev)
    (hcount : count * part.eraseSize ≤ data.length)
    (hstream : blocks.flatten ++ data <+: stream) :
    Prog.Safe (calls part) (fun dev => holds dev.block)
      (fun r dev' => r.1 = true → r.2.1 = ctx ∧
        r.2.2 = data.drop (count * part.eraseSize) ∧
        ∃ more, At part start (blocks ++ more) dev' ∧
          more.flatten ++ r.2.2 = data)
      (writeDirect part count ctx data) dev := by
  have hnow : holds dev.block := hendures.laid hat.full
    ((List.prefix_append _ _).trans hstream) hat.laid
  induction count generalizing data blocks dev with
  | zero =>
      refine ⟨hnow, fun _ => ⟨rfl, by simp, [], ?_, rfl⟩⟩
      rwa [List.append_nil]
  | succ count ih =>
      rw [Nat.succ_mul] at hcount
      have hlength : (data.take part.eraseSize).length = part.eraseSize := by
        rw [List.length_take]
        omega
      have hsplit : blocks.flatten ++ data =
          blocks.flatten ++ data.take part.eraseSize ++
            data.drop part.eraseSize := by
        rw [List.append_assoc, List.take_append_drop]
      rw [hsplit] at hstream
      have hfirst : blocks.flatten ++ data.take part.eraseSize <+: stream :=
        (List.prefix_append _ _).trans hstream
      rw [writeDirect]
      refine Prog.Safe.bind (safe_writeBlock hendures ctx hat hlength
        hfirst) ?_
      rintro ⟨ok, ctx'⟩ dev' hinv hpost
      cases ok with
      | false => exact ⟨hinv, fun hok => absurd hok (by simp)⟩
      | true =>
          obtain ⟨rfl, hat'⟩ := hpost rfl
          have hflatten : (blocks ++ [data.take part.eraseSize]).flatten =
              blocks.flatten ++ data.take part.eraseSize := by
            simp
          refine (ih hat' (by rw [List.length_drop]; omega)
            (by rwa [hflatten]) hinv).mono (fun _ h => h) ?_
          intro r dev'' _ hpost hok
          obtain ⟨hctx, hdrop, more, hmore, hrest⟩ := hpost hok
          refine ⟨hctx, ?_, data.take part.eraseSize :: more, ?_, ?_⟩
          · rw [hdrop, List.drop_drop, Nat.succ_mul, Nat.add_comm]
          · rwa [List.append_assoc] at hmore
          · rw [List.flatten_cons, List.append_assoc, hrest,
              List.take_append_drop]

theorem safe_writePending (ctx : WriteContext) {blocks : List Bytes}
    {dev : Device} (hat : At part start blocks dev)
    (hroom : ctx.pending.length ≤ part.eraseSize)
    (hstream : blocks.flatten ++ ctx.pending <+: stream) :
    Prog.Safe (calls part) (fun dev => holds dev.block)
      (fun r dev' => r.1 = true → r.2.pending.length < part.eraseSize ∧
        ∃ more, At part start (blocks ++ more) dev' ∧
          more.flatten ++ r.2.pending = ctx.pending)
      (writePending part ctx) dev := by
  have hnow : holds dev.block := hendures.laid hat.full
    ((List.prefix_append _ _).trans hstream) hat.laid
  unfold writePending
  by_cases hfull : ctx.pending.length = part.eraseSize
  · rw [if_pos hfull]
    refine Prog.Safe.bind (safe_writeBlock hendures ctx hat hfull
      hstream) ?_
    rintro ⟨ok, ctx'⟩ dev' hinv hpost
    refine ⟨hinv, ?_⟩
    rintro rfl
    obtain ⟨rfl, hat'⟩ := hpost rfl
    exact ⟨part.eraseSize_pos, [ctx'.pending], hat', by simp⟩
  · rw [if_neg hfull]
    refine ⟨hnow, fun _ => ⟨lt_of_le_of_ne hroom hfull, [], ?_, rfl⟩⟩
    rwa [List.append_nil]

/-- A pass of the loop takes the front of the data over. -/
theorem safe_writePass {taken data : Bytes} {ctx : WriteContext} {dev : Device}
    (htaken : Taken part start taken ctx dev) (hdata : data ≠ [])
    (hstream : taken ++ data <+: stream) :
    Prog.Safe (calls part) (fun dev => holds dev.block)
      (fun r dev' => r.1 = true → r.2.2.length < data.length ∧
        ∃ front, front ++ r.2.2 = data ∧
          Taken part start (taken ++ front) r.2.1 dev')
      (writePass part ctx data) dev := by
  obtain ⟨blocks, hat, rfl, hroom⟩ := htaken
  have hsome := List.length_pos_iff.mpr hdata
  unfold writePass
  generalize hcopy : (if ctx.pending ≠ [] ∨ data.length < part.eraseSize
    then min data.length (part.eraseSize - ctx.pending.length)
    else 0) = copy
  have hcopied : ctx.pending.length + copy ≤ part.eraseSize ∧
      copy ≤ data.length := by
    split at hcopy <;> omega
  -- without a copy, nothing is pending and a complete block is at hand
  have hnone : copy = 0 → ctx.pending = [] ∧ part.eraseSize ≤ data.length := by
    intro hzero
    split at hcopy
    · omega
    · next hfull =>
        push Not at hfull
        exact hfull
  have hsplit : blocks.flatten ++ ctx.pending ++ data =
      blocks.flatten ++ (ctx.pending ++ data.take copy) ++ data.drop copy := by
    simp only [List.append_assoc, List.take_append_drop]
  rw [hsplit] at hstream
  have hfirst : (ctx.pending ++ data.take copy).length ≤ part.eraseSize := by
    rw [List.length_append, List.length_take]
    omega
  refine Prog.Safe.bind (safe_writePending hendures
    { ctx with pending := ctx.pending ++ data.take copy } hat hfirst
    ((List.prefix_append _ _).trans hstream)) ?_
  rintro ⟨ok, ctx'⟩ dev' hinv hpost
  cases ok with
  | false => exact ⟨hinv, fun hok => absurd hok (by simp)⟩
  | true =>
      obtain ⟨hshort, more, hat', hmore⟩ := hpost rfl
      dsimp only at hshort hmore ⊢
      rw [if_pos rfl]
      by_cases hempty : ctx'.pending = []
      · rw [if_pos hempty]
        rw [hempty, List.append_nil] at hmore
        have hahead : (blocks ++ more).flatten ++ data.drop copy <+:
            stream := by
          rwa [List.flatten_append, hmore]
        refine (safe_writeDirect hendures _ hat' (Nat.div_mul_le_self _ _)
          hahead).mono (fun _ h => h) ?_
        rintro ⟨ok, ctx'', rest⟩ dev'' - hpost hok
        obtain ⟨rfl, hdrop, more', hat'', hrest⟩ := hpost hok
        dsimp only at hdrop hrest hempty ⊢
        refine ⟨?_, data.take copy ++ more'.flatten, ?_, _, hat'', ?_, hshort⟩
        · rw [hdrop, List.length_drop, List.length_drop]
          by_cases hzero : copy = 0
          · obtain ⟨-, hblock⟩ := hnone hzero
            have hone := Nat.div_pos hblock part.eraseSize_pos
            have hmany := Nat.mul_le_mul_right part.eraseSize hone
            have hsize := part.eraseSize_pos
            rw [hzero, Nat.sub_zero]
            omega
          · omega
        · rw [List.append_assoc, hrest, List.take_append_drop]
        · simp only [hempty, List.append_nil, List.flatten_append, hmore,
            List.append_assoc]
      · rw [if_neg hempty]
        refine ⟨hinv, fun _ => ⟨?_, data.take copy, ?_, _, hat', ?_, hshort⟩⟩
        · have hpos : copy ≠ 0 := by
            intro hzero
            rw [(hnone hzero).1, hzero] at hmore
            exact hempty (List.append_eq_nil_iff.mp hmore).2
          dsimp only
          rw [List.length_drop]
          omega
        · exact List.take_append_drop copy data
        · dsimp only
          rw [List.flatten_append, List.append_assoc, hmore,
            List.append_assoc]

theorem safe_writeLoop (fuel : Nat) {taken data : Bytes} {ctx : WriteContext}
    {dev : Device} (hfuel : data.length ≤ fuel)
    (htaken : Taken part start taken ctx dev)
    (hstream : taken ++ data <+: stream) :
    Prog.Safe (calls part) (fun dev => holds dev.block)
      (fun r dev' => r.1 = true → Taken part start (taken ++ data) r.2 dev')
      (writeLoop part fuel ctx data) dev := by
  have hnow := htaken.holds hendures ((List.prefix_append _ _).trans hstream)
  induction fuel generalizing taken data ctx dev with
  | zero =>
      have hempty : data = [] := List.eq_nil_of_length_eq_zero (by omega)
      rw [hempty, List.append_nil]
      exact ⟨hnow, fun _ => htaken⟩
  | succ fuel ih =>
      rw [writeLoop]
      by_cases hempty : data = []
      · rw [if_pos hempty, hempty, List.append_nil]
        exact ⟨hnow, fun _ => htaken⟩
      · rw [if_neg hempty]
        refine Prog.Safe.bind (safe_writePass hendures htaken hempty hstream) ?_
        rintro ⟨ok, ctx', rest⟩ dev' hinv hpost
        cases ok with
        | false => exact ⟨hinv, fun hok => absurd hok (by simp)⟩
        | true =>
            obtain ⟨hless, front, hfront, htaken'⟩ := hpost rfl
            dsimp only at hless hfront
            rw [← hfront, ← List.append_assoc] at hstream ⊢
            exact ih (by omega) htaken' hstream hinv

/-- `mtd_write_data` takes the data over. -/
theorem safe_mtdWriteData {taken data : Bytes} {ctx : WriteContext}
    {dev : Device} (htaken : Taken part start taken ctx dev)
    (hstream : taken ++ data <+: stream) :
    Prog.Safe (calls part) (fun dev => holds dev.block)
      (fun r dev' => r.1 = true → Taken part start (taken ++ data) r.2 dev')
      (mtdWriteData part ctx data) dev :=
  safe_writeLoop hendures data.length le_rfl htaken hstream

theorem safe_padPending {blocks : List Bytes} {ctx : WriteContext}
    {dev : Device} (hat : At part start blocks dev)
    (hroom : ctx.pending.length < part.eraseSize)
    (hstream : (blocks ++ toBlocks part ctx.pending).flatten <+: stream) :
    Prog.Safe (calls part) (fun dev => holds dev.block)
      (fun r dev' => r.1 = true →
        Laid part start (blocks ++ toBlocks part ctx.pending) dev'.block)
      (padPending part ctx) dev := by
  rw [List.flatten_append] at hstream
  unfold padPending
  by_cases hempty : ctx.pending = []
  · have hnow : holds dev.block := hendures.laid hat.full
      ((List.prefix_append _ _).trans hstream) hat.laid
    have hnothing : toBlocks part ctx.pending = [] := by
      rw [hempty]
      rfl
    rw [if_neg (not_not.mpr hempty), hnothing, List.append_nil]
    exact ⟨hnow, fun _ => hat.laid⟩
  · rw [toBlocks_short hempty hroom, List.flatten_singleton] at hstream
    rw [if_pos hempty, toBlocks_short hempty hroom]
    refine Prog.Safe.bind (safe_writeBlock hendures ctx hat
      (by rw [List.length_append, List.length_replicate]; omega) hstream) ?_
    rintro ⟨ok, ctx'⟩ dev' hinv hpost
    refine ⟨hinv, ?_⟩
    rintro rfl
    exact (hpost rfl).2.laid

/-- Closing writes what is pending, zero padded. -/
theorem safe_mtdWriteClose {taken : Bytes} {ctx : WriteContext} {dev : Device}
    (htaken : Taken part start taken ctx dev)
    (hstream : (toBlocks part taken).flatten <+: stream) :
    Prog.Safe (calls part) (fun dev => holds dev.block)
      (fun closed dev' => closed = true →
        Laid part start (toBlocks part taken) dev'.block)
      (mtdWriteClose part ctx) dev := by
  obtain ⟨blocks, hat, rfl, hroom⟩ := htaken
  rw [toBlocks_flatten_append hat.full] at hstream ⊢
  have herase : Prog.Safe (calls part) (fun dev => holds dev.block)
      (fun r dev' => r.1.isSome = true →
        Laid part start (blocks ++ toBlocks part ctx.pending) dev'.block)
      (mtdEraseBlocks part ctx 0) dev := by
    refine Prog.Safe.bind (safe_padPending hendures hat hroom hstream) ?_
    rintro ⟨ok, ctx'⟩ dev' hinv hpost
    cases ok with
    | false => exact ⟨hinv, fun hok => absurd hok (by simp)⟩
    | true =>
        refine ⟨hinv, fun r after happ => ?_⟩
        have hblock := (Flash.faultFree part).block_of_answers
          (c := .lseekCur) trivial happ
        rcases r with - | pos
        · rw [← hblock] at hinv
          exact ⟨hinv, fun hok => absurd hok (by simp)⟩
        · have hfits : ¬ (0 : Int) >
              (((part.size - pos) / part.eraseSize : Nat) : Int) :=
            not_lt.mpr (Int.natCast_nonneg _)
          simp only [lt_irrefl, if_false, hfits, Int.toNat_zero, eraseLoop,
            Prog.bind]
          rw [← hblock] at hinv hpost
          exact ⟨hinv, fun _ => hpost rfl⟩
  refine herase.bind ?_
  rintro ⟨erased, ctx'⟩ dev' hinv hpost
  refine ⟨hinv, fun closed after happ => ?_⟩
  have hblock := (Flash.faultFree part).block_of_answers (c := .close)
    trivial happ
  rw [← hblock] at hinv hpost
  refine ⟨hinv, fun hclosed => hpost ?_⟩
  simpa using (Bool.and_eq_true_iff.mp hclosed).1

theorem safe_copyFile (ptn : String) (fuel : Nat) {taken unread : Bytes}
    {ctx : WriteContext} {dev : Device} (hfuel : unread.length ≤ fuel)
    (htaken : Taken part start taken ctx dev)
    (hstream : taken ++ unread <+: stream) :
    Prog.Safe (calls part) (fun dev => holds dev.block)
      (fun r dev' => ∀ ctx', r = .ok ctx' →
        Taken part start (taken ++ unread) ctx' dev')
      (copyFile part ptn fuel ctx unread) dev := by
  have hnow := htaken.holds hendures ((List.prefix_append _ _).trans hstream)
  induction fuel generalizing taken unread ctx dev with
  | zero =>
      have hempty : unread = [] := List.eq_nil_of_length_eq_zero (by omega)
      rw [hempty, List.append_nil]
      refine ⟨hnow, fun ctx' hctx => ?_⟩
      cases hctx
      exact htaken
  | succ fuel ih =>
      rw [copyFile]
      by_cases hempty : unread = []
      · rw [if_pos hempty, hempty, List.append_nil]
        refine ⟨hnow, fun ctx' hctx => ?_⟩
        cases hctx
        exact htaken
      · rw [if_neg hempty]
        have hsplit : taken ++ unread = taken ++ unread.take headerSize ++
            unread.drop headerSize := by
          rw [List.append_assoc, List.take_append_drop]
        rw [hsplit] at hstream ⊢
        refine Prog.Safe.bind (safe_mtdWriteData hendures htaken
          ((List.prefix_append _ _).trans hstream)) ?_
        rintro ⟨ok, ctx'⟩ dev' hinv hpost
        cases ok with
        | false => exact ⟨hinv, fun _ hctx => by cases hctx⟩
        | true =>
            have hpos := List.length_pos_iff.mpr hempty
            refine ih ?_ (hpost rfl) hstream hinv
            rw [List.length_drop, headerSize]
            omega

theorem safe_copyBlock (ptn file : String) (fuel : Nat) {left : Nat}
    {taken unread : Bytes} {ctx : WriteContext} {dev : Device}
    (hfuel : left ≤ fuel) (htaken : Taken part start taken ctx dev)
    (hstream : taken ++ unread.take left <+: stream) :
    Prog.Safe (calls part) (fun dev => holds dev.block)
      (fun r dev' => ∀ ctx', r = .ok ctx' → left ≤ unread.length ∧
        Taken part start (taken ++ unread.take left) ctx' dev')
      (copyBlock part ptn file fuel left ctx unread) dev := by
  have hnow := htaken.holds hendures ((List.prefix_append _ _).trans hstream)
  induction fuel generalizing left taken unread ctx dev with
  | zero =>
      have hzero : left = 0 := by omega
      rw [hzero, List.take_zero, List.append_nil]
      refine ⟨hnow, fun ctx' hctx => ⟨Nat.zero_le _, ?_⟩⟩
      cases hctx
      exact htaken
  | succ fuel ih =>
      rw [copyBlock]
      by_cases hzero : left = 0
      · rw [if_pos hzero, hzero, List.take_zero, List.append_nil]
        refine ⟨hnow, fun ctx' hctx => ⟨Nat.zero_le _, ?_⟩⟩
        cases hctx
        exact htaken
      · rw [if_neg hzero]
        obtain ⟨buf, hbuf⟩ : ∃ buf, unread.take (min headerSize left) = buf :=
          ⟨_, rfl⟩
        dsimp only
        rw [hbuf]
        by_cases hend : buf = []
        · rw [if_pos hend]
          exact ⟨hnow, fun _ hctx => by cases hctx⟩
        · rw [if_neg hend]
          have hpos := List.length_pos_iff.mpr hend
          have hlength : buf.length ≤ left ∧ buf.length ≤ unread.length := by
            rw [← hbuf, List.length_take]
            omega
          have hfront : unread.take buf.length = buf := by
            rw [← hbuf, List.length_take, List.take_eq_take_iff]
            omega
          have hsplit : taken ++ unread.take left = taken ++ buf ++
              (unread.drop buf.length).take (left - buf.length) := by
            have hadd : left = buf.length + (left - buf.length) := by omega
            rw [hadd, List.take_add, hfront, List.append_assoc, ← hadd]
          rw [hsplit] at hstream ⊢
          refine Prog.Safe.bind (safe_mtdWriteData hendures htaken
            ((List.prefix_append _ _).trans hstream)) ?_
          rintro ⟨ok, ctx'⟩ dev' hinv hpost
          cases ok with
          | false => exact ⟨hinv, fun _ hctx => by cases hctx⟩
          | true =>
              refine (ih (by omega) (hpost rfl) hstream hinv).mono
                (fun _ h => h) ?_
              intro r dev'' _ hpost ctx'' hctx
              obtain ⟨hleft, htaken'⟩ := hpost ctx'' hctx
              rw [List.length_drop] at hleft
              exact ⟨by omega, htaken'⟩

end Writing

theorem safe_mtdWritePartition {dev : Device} {holds : (Nat → Block) → Prop}
    (hnow : holds dev.block) :
    Prog.Safe (calls part) (fun dev => holds dev.block)
      (fun r dev' => ∀ ctx, r = some ctx →
        Taken part dev.block [] ctx dev')
      mtdWritePartition dev := by
  refine ⟨hnow, fun opened after happ => ?_⟩
  rcases happ with hsame | ⟨hfail, rfl⟩
  · obtain ⟨rfl, rfl⟩ := Prod.mk.inj hsame
    refine ⟨hnow, fun ctx hctx => ?_⟩
    cases hctx
    exact ⟨[], ⟨by simp, Laid.nil _, by simp⟩, rfl, part.eraseSize_pos⟩
  · cases hfail
    exact ⟨hnow, fun ctx hctx => by cases hctx⟩

/-- What the first pass writes: the image with its header zeroed. -/
def zeroed (img : Bytes) : Bytes :=
  List.replicate (img.take headerSize).length 0 ++ img.drop headerSize

theorem safe_firstPass (ptn : String) {img : Bytes} {dev : Device}
    {holds : (Nat → Block) → Prop}
    (hendures : Endures part dev.block (toBlocks part (zeroed img)).flatten
      holds) :
    Prog.Safe (calls part) (fun dev => holds dev.block)
      (fun r dev' => r = .ok () →
        Laid part dev.block (toBlocks part (zeroed img)) dev'.block)
      (firstPass part ptn img) dev := by
  have hnow : holds dev.block := hendures.start
  obtain ⟨count, hflatten⟩ := toBlocks_flatten part (zeroed img)
  have hstream : zeroed img <+: (toBlocks part (zeroed img)).flatten := by
    rw [hflatten]
    exact List.prefix_append _ _
  refine (safe_mtdWritePartition hnow).bind ?_
  rintro (- | ctx) dev₁ hinv htaken
  · exact ⟨hinv, fun hok => by cases hok⟩
  · refine Prog.Safe.bind (safe_mtdWriteData hendures (htaken ctx rfl)
      ((List.prefix_append _ _).trans hstream)) ?_
    rintro ⟨ok, ctx₂⟩ dev₂ hinv htaken
    cases ok with
    | false => exact ⟨hinv, fun hok => by cases hok⟩
    | true =>
        refine Prog.Safe.bind (safe_copyFile hendures ptn _ le_rfl
          (htaken rfl) hstream) ?_
        rintro (message | ctx₃) dev₃ hinv htaken
        · exact ⟨hinv, fun hok => by cases hok⟩
        · refine Prog.Safe.bind (safe_mtdWriteClose hendures
            (htaken ctx₃ rfl) List.prefix_rfl) ?_
          rintro (- | -) dev₄ hinv hlaid
          · exact ⟨hinv, fun hok => by cases hok⟩
          · exact ⟨hinv, fun _ => hlaid rfl⟩

theorem safe_secondPass (ptn file : String) {img : Bytes} {dev : Device}
    {holds : (Nat → Block) → Prop} (hsize : headerSize ≤ part.eraseSize)
    (hlong : headerSize ≤ img.length)
    (hendures : Endures part dev.block (img.take part.eraseSize) holds) :
    Prog.Safe (calls part) (fun dev => holds dev.block) (fun _ _ => True)
      (secondPass part ptn file img) dev := by
  have hnow : holds dev.block := hendures.start
  have hheader : (img.take headerSize).length = headerSize := by
    rw [List.length_take]
    omega
  have hleft : leftInBlock part headerSize = part.eraseSize - headerSize :=
    if_pos hsize
  have hsplit : img.take part.eraseSize = img.take headerSize ++
      (img.drop headerSize).take (part.eraseSize - headerSize) := by
    rw [← List.take_add, Nat.add_sub_of_le hsize]
  refine (safe_mtdWritePartition hnow).bind ?_
  rintro (- | ctx) dev₁ hinv htaken
  · exact ⟨hinv, trivial⟩
  · refine Prog.Safe.bind (safe_mtdWriteData hendures (htaken ctx rfl)
      (hsplit ▸ List.prefix_append _ _)) ?_
    rintro ⟨ok, ctx₂⟩ dev₂ hinv htaken
    cases ok with
    | false => exact ⟨hinv, trivial⟩
    | true =>
        dsimp only
        rw [if_pos rfl, hheader, hleft]
        have hstream : [] ++ img.take headerSize ++
            (img.drop headerSize).take (part.eraseSize - headerSize) <+:
              img.take part.eraseSize := by
          rw [List.nil_append, ← hsplit]
        refine (safe_copyBlock hendures ptn file (part.eraseSize - headerSize)
          (Nat.le_refl _) (htaken rfl) hstream).bind ?_
        rintro (message | ctx₃) dev₃ hinv htaken
        · exact ⟨hinv, trivial⟩
        · obtain ⟨hwhole, htaken⟩ := htaken ctx₃ rfl
          rw [List.nil_append, ← hsplit] at htaken
          have hblock : toBlocks part (img.take part.eraseSize) =
              [img.take part.eraseSize] := by
            have hlength : (img.take part.eraseSize).length =
                part.eraseSize := by
              rw [List.length_drop] at hwhole
              rw [List.length_take]
              omega
            have hcons := toBlocks_cons hlength []
            rwa [List.append_nil] at hcons
          refine Prog.Safe.bind (safe_mtdWriteClose hendures htaken
            (by rw [hblock, List.flatten_singleton])) ?_
          rintro (- | -) dev₄ hinv -
          · exact ⟨hinv, trivial⟩
          · exact ⟨hinv, trivial⟩

/-- The first bytes `mtd_read_data` returns: those of the first block that is
not all zero. -/
def headerRead (part : Partition) (block : Nat → Block) : Option Bytes :=
  ((Flash.faultFree part).nextGood block (part.blocksFrom 0) 0).map
    fun found => found.2.take headerSize

/-- The context `mtd_read_partition` returns. -/
def freshContext (part : Partition) : ReadContext :=
  ⟨List.replicate part.eraseSize 0, part.eraseSize⟩

theorem run_mtdReadData_header (hsize : headerSize < part.eraseSize)
    (dev : Device) :
    ((Flash.faultFree part).run (mtdReadData part (freshContext part)
      headerSize) { dev with filePos := 0 }).1.1 =
      headerRead part dev.block := by
  have hpos : 0 < headerSize := by
    rw [headerSize]
    decide
  have hsmall : headerSize < 2 ^ 31 := by
    rw [headerSize]
    decide
  have hspec := (Flash.faultFree part).run_readBlock { dev with filePos := 0 }
  obtain ⟨fuel, hfuel⟩ : ∃ fuel, headerSize = fuel + 1 :=
    ⟨headerSize - 1, by omega⟩
  have hcopy : min headerSize (part.eraseSize - part.eraseSize) = 0 := by
    omega
  have hnone : headerSize / part.eraseSize = 0 := Nat.div_eq_of_lt hsize
  rw [mtdReadData, if_pos hsmall, readLoop]
  simp only [freshContext, hpos.ne', if_false, hcopy, Nat.add_zero,
    Nat.sub_zero, if_true, hnone, Nat.zero_mul, readDirect, Flash.run_bind,
    Prog.pure_eq_ret, Flash.run_ret]
  unfold headerRead
  cases hnext : (Flash.faultFree part).nextGood dev.block (part.blocksFrom 0)
      0 with
  | none =>
      rw [hnext] at hspec
      simp only at hspec
      simp [hspec]
  | some found =>
      obtain ⟨pos, data⟩ := found
      rw [hnext] at hspec
      obtain ⟨hdata, -⟩ := hspec
      have hserve : ∀ dev', (Flash.faultFree part).run
          (readLoop part (fuel + 1) headerSize ⟨data, 0⟩) dev' = _ :=
        fun dev' => run_readLoop_buffered _ dev' hpos (by simp; omega)
      rw [← hfuel] at hserve
      simp only [hdata, Flash.run_bind, Flash.run_ret, hserve, Option.map_some,
        List.nil_append, Bytes.window, List.drop_zero, List.take_zero]

theorem run_readSession_header (hsize : headerSize < part.eraseSize)
    (dev : Device) :
    ((Flash.faultFree part).run (readSession part [headerSize]) dev).1 =
      (headerRead part dev.block).map fun header => [header] := by
  have hread := run_mtdReadData_header hsize dev
  simp only [readSession, mtdReadPartition, Flash.run_bind,
    Flash.run_openDevice, if_true, Prog.pure_eq_ret, Flash.run_ret, readAll]
  rw [freshContext] at hread
  cases hheader : headerRead part dev.block with
  | none =>
      rw [hheader] at hread
      simp only [hread]
      rfl
  | some header =>
      rw [hheader] at hread
      simp only [hread]
      rfl

theorem run_checkHeader (hsize : headerSize < part.eraseSize) {header : Bytes}
    {dev : Device}
    (hsame : ((Flash.faultFree part).run (checkHeader part header) dev).1 =
      true) :
    headerRead part dev.block = some header := by
  have hread := run_mtdReadData_header hsize dev
  rw [freshContext] at hread
  simp only [checkHeader, mtdReadPartition, Flash.run_bind,
    Flash.run_openDevice, if_true, Prog.pure_eq_ret, Flash.run_ret,
    hread] at hsame
  by_contra hother
  rw [if_neg hother] at hsame
  cases hsame

theorem issues_checkHeader (header : Bytes) :
    (checkHeader part header).Issues Call.Looks := by
  refine (issues_mtdReadPartition part).bind fun opened => ?_
  cases opened with
  | none => trivial
  | some ctx =>
      refine (issues_mtdReadData part ctx headerSize).bind fun read => ?_
      refine Prog.Issues.ite trivial ?_
      exact (Prog.issues_perform trivial).bind fun _ => trivial

theorem aborts_checkHeader (header : Bytes) :
    (checkHeader part header).Aborts Call.Fails (· = false) := by
  refine (aborts_mtdReadPartition part).bind (fun opened => ?_) ?_
  · cases opened with
    | none => trivial
    | some ctx =>
        refine (aborts_mtdReadData part ctx headerSize).bind (fun read => ?_) ?_
        · refine Prog.Aborts.ite trivial ?_
          exact Prog.aborts_perform.bind (fun _ => trivial) fun _ _ => rfl
        · rintro ⟨_, ctx'⟩ rfl
          exact fun _ => rfl
  · rintro _ rfl
    rfl

/-- The check leaves the flash alone, and it passes only on the header that
`mtd_read_data` returns. -/
theorem safe_checkHeader (hsize : headerSize < part.eraseSize) (header : Bytes)
    (dev : Device) :
    Prog.Safe (calls part) (fun dev' => dev'.block = dev.block)
      (fun same dev' => same = true →
        headerRead part dev'.block = some header)
      (checkHeader part header) dev := by
  have hkeeps : Prog.Safe (calls part) (fun dev' => dev'.block = dev.block)
      (fun _ _ => True) (checkHeader part header) dev := by
    refine Prog.Safe.of_issues ?_ (issues_checkHeader header) rfl
    intro c state r after hc hinv happ
    exact ((Flash.faultFree part).block_of_answers hc happ).trans hinv
  have hvalue : Prog.Safe (calls part) (fun _ => True)
      (fun same dev' => same = false ∨
        (same, dev') = (checkHeader part header).eval
          (Flash.faultFree part).handler dev)
      (checkHeader part header) dev := by
    refine Prog.Safe.of_aborts (Flash.faultFree part).handler ?_
      (aborts_checkHeader header)
    intro c state r after happ
    exact happ.imp id And.left
  refine (hkeeps.and hvalue).mono (fun _ h => h.1) ?_
  rintro same dev' ⟨hblock, -⟩ ⟨-, hresult⟩ hsame
  rcases hresult with hfalse | heval
  · rw [hfalse] at hsame
    cases hsame
  · rw [hblock]
    refine run_checkHeader hsize ?_
    rw [Flash.run, ← heval]
    exact hsame

/-- An image that `flash_image` can tell apart from what it leaves behind
while it works. -/
structure Flashable (part : Partition) (img : Bytes) : Prop where
  header_not_zero : ∃ b ∈ img.take headerSize, b ≠ 0
  header_not_erased : ∃ b ∈ img.take headerSize, b ≠ 255
  rest_not_zero : ∃ b ∈ (img.take part.eraseSize).drop headerSize, b ≠ 0

/-- The first blocks hold the image, the last one zero padded. -/
def HoldsImage (part : Partition) (img : Bytes) (block : Nat → Block) : Prop :=
  ∀ i data, (toBlocks part img)[i]? = some data →
    (block (i * part.eraseSize)).content = data

/-- The header of the image stands for the whole image. -/
def Intact (part : Partition) (img : Bytes) (block : Nat → Block) : Prop :=
  headerRead part block ≠ some (img.take headerSize) ∨
    HoldsImage part img block

theorem nextGood_congr {block block' : Nat → Block}
    (hsame : ∀ q, (block q).content = (block' q).content) (count pos : Nat) :
    (Flash.faultFree part).nextGood block count pos =
      (Flash.faultFree part).nextGood block' count pos := by
  induction count generalizing pos with
  | zero => rfl
  | succ count ih =>
      simp only [Flash.nextGood, Flash.takes, Flash.faultFree, hsame pos]
      rw [← Flash.faultFree, ih]

theorem Intact.congr {img : Bytes} {block block' : Nat → Block}
    (hintact : Intact part img block)
    (hsame : ∀ q, (block q).content = (block' q).content) :
    Intact part img block' := by
  rcases hintact with hother | hholds
  · refine Or.inl ?_
    rwa [headerRead, ← nextGood_congr hsame]
  · refine Or.inr fun i data hdata => ?_
    rw [← hsame]
    exact hholds i data hdata

/-- The reader stops at the first block if that is not all zero. -/
theorem headerRead_of_first {block : Nat → Block}
    (hlength : (block 0).content.length = part.eraseSize)
    (hsome : ∃ b ∈ (block 0).content, b ≠ 0) {header : Bytes}
    (hread : headerRead part block = some header) :
    header = (block 0).content.take headerSize := by
  have htakes : (Flash.faultFree part).takes 0 (block 0) =
      some (block 0).content := by
    simp [Flash.takes, Flash.faultFree, hlength]
    exact hsome
  unfold headerRead at hread
  cases hcount : part.blocksFrom 0 with
  | zero =>
      rw [hcount] at hread
      cases hread
  | succ count =>
      have hgood : ((Flash.faultFree part).read 0 (block 0)).2 = false := rfl
      rw [hcount, Flash.nextGood, hgood, htakes] at hread
      exact (Option.some.inj hread).symm

/-- A first block that is not all zero and starts otherwise. -/
theorem intact_of_first {img : Bytes} {block : Nat → Block}
    (hlength : (block 0).content.length = part.eraseSize)
    (hsome : ∃ b ∈ (block 0).content, b ≠ 0)
    (hother : (block 0).content.take headerSize ≠ img.take headerSize) :
    Intact part img block := by
  refine Or.inl fun hread => hother ?_
  exact (headerRead_of_first hlength hsome hread).symm

section Runs

variable {img : Bytes} (hflash : Flashable part img)
include hflash

theorem Flashable.sizes :
    headerSize < part.eraseSize ∧ headerSize < img.length := by
  obtain ⟨b, hb, -⟩ := hflash.rest_not_zero
  have hpos := List.length_pos_of_mem hb
  rw [List.length_drop, List.length_take] at hpos
  omega

theorem intact_of_erased {block : Nat → Block}
    (herased : Erased part (block 0)) : Intact part img block := by
  obtain ⟨hsize, -⟩ := hflash.sizes
  refine intact_of_first ?_ ?_ ?_
  · rw [herased, List.length_replicate]
  · refine ⟨255, ?_, by decide⟩
    rw [herased]
    exact List.mem_replicate.mpr ⟨part.eraseSize_pos.ne', rfl⟩
  · intro hsame
    obtain ⟨b, hb, hne⟩ := hflash.header_not_erased
    rw [← hsame, herased] at hb
    exact hne (List.eq_of_mem_replicate (List.mem_of_mem_take hb))

theorem zeroed_eq : zeroed img =
    List.replicate headerSize 0 ++ img.drop headerSize := by
  rw [zeroed, List.length_take, Nat.min_eq_left hflash.sizes.2.le]

/-- The first block of the first pass. -/
theorem intact_of_zeroed {block : Nat → Block}
    (hlength : (block 0).content.length = part.eraseSize)
    (hfront : (block 0).content <+: (toBlocks part (zeroed img)).flatten) :
    Intact part img block := by
  obtain ⟨hsize, hlong⟩ := hflash.sizes
  obtain ⟨count, hflatten⟩ := toBlocks_flatten part (zeroed img)
  rw [hflatten, zeroed_eq hflash, List.append_assoc] at hfront
  have hfirst := List.prefix_iff_eq_take.mp hfront
  rw [hlength] at hfirst
  have hsplit : (block 0).content = List.replicate headerSize 0 ++
      (img.drop headerSize ++ List.replicate count 0).take
        (part.eraseSize - headerSize) := by
    rw [hfirst, List.take_append, List.length_replicate,
      List.take_of_length_le (by rw [List.length_replicate]; omega)]
  refine intact_of_first hlength ?_ ?_
  · obtain ⟨b, hb, hne⟩ := hflash.rest_not_zero
    refine ⟨b, ?_, hne⟩
    rw [List.drop_take] at hb
    rw [hsplit]
    refine List.mem_append_right _ ?_
    rw [List.take_append]
    exact List.mem_append_left _ hb
  · intro hsame
    obtain ⟨b, hb, hne⟩ := hflash.header_not_zero
    rw [← hsame, hsplit, List.take_left' List.length_replicate] at hb
    exact hne (List.eq_of_mem_replicate hb)

/-- The first pass can be cut off anywhere. -/
theorem endures_first {start : Nat → Block}
    (hstart : Intact part img start) :
    Endures part start (toBlocks part (zeroed img)).flatten
      (Intact part img) := by
  have hzeroed : ∀ {block : Bytes} {blocks : List Bytes} {now : Nat → Block},
      (∀ b ∈ block :: blocks, b.length = part.eraseSize) →
      (block :: blocks).flatten <+: (toBlocks part (zeroed img)).flatten →
      (now 0).content = block → Intact part img now := by
    intro block blocks now hfull hfront hnow
    refine intact_of_zeroed hflash ?_ ?_
    · rw [hnow, hfull block List.mem_cons_self]
    · rw [hnow]
      exact (List.prefix_append _ _).trans hfront
  have hfirst : ∀ {block : Bytes} {blocks : List Bytes} {now : Nat → Block},
      Laid part start (block :: blocks) now → (now 0).content = block := by
    intro block blocks now hlaid
    have hblock := hlaid.written 0 block rfl
    rwa [Nat.zero_mul] at hblock
  constructor
  · intro blocks now hfull hfront hlaid
    cases blocks with
    | nil =>
        exact hstart.congr fun q => (hlaid.kept q (by simp)).symm
    | cons block blocks => exact hzeroed hfull hfront (hfirst hlaid)
  · intro blocks now block data hfull hdata hfront hlaid herased
    cases blocks with
    | nil =>
        refine intact_of_erased hflash ?_
        rwa [List.length_nil, Nat.zero_mul, Function.update_self]
    | cons first blocks =>
        have hne : 0 ≠ (first :: blocks).length * part.eraseSize := by
          have hsize := part.eraseSize_pos
          rw [List.length_cons, Nat.succ_mul]
          omega
        refine hzeroed hfull ((List.prefix_append _ _).trans hfront) ?_
        rw [Function.update_of_ne hne]
        exact hfirst hlaid

/-- After the first pass. -/
theorem intact_of_laid {before start : Nat → Block}
    (hbefore : Laid part before (toBlocks part (zeroed img)) start) :
    Intact part img start := by
  obtain ⟨hsize, hlong⟩ := hflash.sizes
  have hpos := part.eraseSize_pos
  cases hblocks : toBlocks part (zeroed img) with
  | nil =>
      have hcount := toBlocks_count part (zeroed img)
      rw [hblocks, zeroed_eq hflash, List.length_append, List.length_drop,
        List.length_nil, eq_comm, Nat.div_eq_zero_iff] at hcount
      omega
  | cons first rest =>
      have hfirst := hbefore.written 0 first (by rw [hblocks]; rfl)
      rw [Nat.zero_mul] at hfirst
      refine intact_of_zeroed hflash ?_ ?_
      · rw [hfirst]
        exact toBlocks_length (hblocks ▸ List.mem_cons_self)
      · rw [hfirst, hblocks, List.flatten_cons]
        exact List.prefix_append _ _

/-- After the second pass. -/
theorem holdsImage_of_second {before start now : Nat → Block}
    (hbefore : Laid part before (toBlocks part (zeroed img)) start)
    (hlaid : Laid part start [img.take part.eraseSize] now)
    (hwhole : part.eraseSize ≤ img.length) : HoldsImage part img now := by
  obtain ⟨hsize, -⟩ := hflash.sizes
  have hpos := part.eraseSize_pos
  have himage : toBlocks part img =
      img.take part.eraseSize :: toBlocks part (img.drop part.eraseSize) := by
    conv_lhs => rw [← List.take_append_drop part.eraseSize img]
    exact toBlocks_cons (List.length_take_of_le hwhole) _
  have hzeroed : toBlocks part (zeroed img) =
      (List.replicate headerSize 0 ++
        (img.drop headerSize).take (part.eraseSize - headerSize)) ::
          toBlocks part (img.drop part.eraseSize) := by
    have hrest : img.drop part.eraseSize =
        (img.drop headerSize).drop (part.eraseSize - headerSize) := by
      rw [List.drop_drop, Nat.add_sub_of_le hsize.le]
    rw [zeroed_eq hflash, hrest]
    conv_lhs => rw [← List.take_append_drop (part.eraseSize - headerSize)
      (img.drop headerSize), ← List.append_assoc]
    refine toBlocks_cons ?_ _
    rw [List.length_append, List.length_replicate, List.length_take,
      List.length_drop]
    omega
  intro i data hdata
  rw [himage] at hdata
  cases i with
  | zero =>
      have hfirst := hlaid.written 0 _ rfl
      rw [hfirst]
      exact Option.some.inj hdata
  | succ i =>
      have hkept := hlaid.kept ((i + 1) * part.eraseSize) (by
        intro j hj
        rw [List.length_singleton] at hj
        rw [Nat.lt_one_iff.mp hj, Nat.zero_mul, Nat.succ_mul]
        omega)
      rw [hkept]
      refine hbefore.written (i + 1) data ?_
      rw [hzeroed]
      exact hdata

/-- The second pass can be cut off anywhere. -/
theorem endures_second {before start : Nat → Block}
    (hbefore : Laid part before (toBlocks part (zeroed img)) start) :
    Endures part start (img.take part.eraseSize) (Intact part img) := by
  obtain ⟨hsize, hlong⟩ := hflash.sizes
  have hpos := part.eraseSize_pos
  have hlimit : (img.take part.eraseSize).length ≤ part.eraseSize := by
    rw [List.length_take]
    omega
  -- no block fits behind one that is there already
  have hsingle : ∀ {blocks : List Bytes} {data : Bytes},
      (∀ block ∈ blocks, block.length = part.eraseSize) →
      data.length = part.eraseSize →
      blocks.flatten ++ data <+: img.take part.eraseSize → blocks = [] := by
    intro blocks data hfull hdata hfront
    cases blocks with
    | nil => rfl
    | cons block blocks =>
        have hblock := hfull block List.mem_cons_self
        have hle := hfront.length_le
        simp only [List.flatten_cons, List.length_append] at hle
        omega
  constructor
  · intro blocks now hfull hfront hlaid
    cases blocks with
    | nil =>
        refine Intact.congr ?_ fun q => (hlaid.kept q (by simp)).symm
        exact intact_of_laid hflash hbefore
    | cons block blocks =>
        have hblock := hfull block List.mem_cons_self
        have hle := hfront.length_le
        rw [List.flatten_cons, List.length_append] at hle
        have hnone : blocks = [] := by
          cases blocks with
          | nil => rfl
          | cons next blocks =>
              have hnext := hfull next (by simp)
              rw [List.flatten_cons, List.length_append] at hle
              omega
        rw [hnone] at hfront hlaid
        rw [List.flatten_singleton] at hfront
        have hwhole : block = img.take part.eraseSize :=
          hfront.eq_of_length (by rw [hblock]; omega)
        rw [hwhole, List.length_take] at hblock
        rw [hwhole] at hlaid
        exact Or.inr (holdsImage_of_second hflash hbefore hlaid (by omega))
  · intro blocks now block data hfull hdata hfront hlaid herased
    obtain rfl := hsingle hfull hdata hfront
    refine intact_of_erased hflash ?_
    rwa [List.length_nil, Nat.zero_mul, Function.update_self]

/-- One run keeps the header honest wherever it is cut off, and it finds the
header in place only with the whole image behind it. -/
theorem safe_flashImage (ptn file : String) {dev : Device}
    (hstart : Intact part img dev.block) :
    Prog.Safe (calls part) (fun dev => Intact part img dev.block)
      (fun outcome dev' => outcome = .headerSame →
        HoldsImage part img dev'.block)
      (flashImage part ptn file img) dev := by
  obtain ⟨hsize, hlong⟩ := hflash.sizes
  unfold flashImage
  by_cases hempty : img.take headerSize = []
  · rw [if_pos hempty]
    exact ⟨hstart, fun hsame => by cases hsame⟩
  · rw [if_neg hempty]
    have hcheck : Prog.Safe (calls part)
        (fun dev' => Intact part img dev'.block)
        (fun same dev' => same = true → HoldsImage part img dev'.block)
        (checkHeader part (img.take headerSize)) dev := by
      refine (safe_checkHeader hsize (img.take headerSize) dev).mono ?_ ?_
      · intro dev' hblock
        rwa [hblock]
      · intro same dev' hblock hread hsame
        rw [← hblock] at hstart
        rcases hstart with hother | hholds
        · exact absurd (hread hsame) hother
        · exact hholds
    refine hcheck.bind ?_
    rintro same dev₁ hinv hholds
    cases same with
    | true => exact ⟨hinv, fun _ => hholds rfl⟩
    | false =>
        refine (safe_firstPass ptn (endures_first hflash hinv)).bind ?_
        rintro (message | ⟨⟩) dev₂ hinv hlaid
        · exact ⟨hinv, fun hsame => by cases hsame⟩
        · refine (safe_secondPass ptn file hsize.le hlong.le
            (endures_second hflash (hlaid rfl))).bind ?_
          rintro (message | -) dev₃ hinv -
          · exact ⟨hinv, fun hsame => by cases hsame⟩
          · exact ⟨hinv, fun hsame => by cases hsame⟩

end Runs

/-- A run that is cut off somewhere, or comes to its end; what is on flash
stays. -/
def CutOff (part : Partition) (ptn file : String) (img : Bytes)
    (dev dev' : Device) : Prop :=
  ∃ rest stopped, Prog.Reaches (calls part) (flashImage part ptn file img, dev)
    (rest, stopped) ∧ dev'.block = stopped.block

theorem intact_of_runs {ptn file : String} {img : Bytes} {first dev : Device}
    (hflash : Flashable part img) (hfirst : Intact part img first.block)
    (hruns : Relation.ReflTransGen (CutOff part ptn file img) first dev) :
    Intact part img dev.block := by
  induction hruns with
  | refl => exact hfirst
  | tail _ hcut ih =>
      obtain ⟨rest, stopped, hreach, hblock⟩ := hcut
      rw [hblock]
      exact (safe_flashImage hflash ptn file ih).inv_of_reaches hreach

/-- However many runs were cut off, and wherever: a run that finds the header
in place finds the whole image. -/
theorem headerSame_reads_image {ptn file : String} {img : Bytes}
    {first dev dev' : Device} (hflash : Flashable part img)
    (hdiffers : ((Flash.faultFree part).run (readSession part [headerSize])
      first).1 ≠ some [img.take headerSize])
    (hruns : Relation.ReflTransGen (CutOff part ptn file img) first dev)
    (hsame : Prog.Reaches (calls part) (flashImage part ptn file img, dev)
      (.ret .headerSame, dev')) :
    ∀ i data, (toBlocks part img)[i]? = some data →
      ((Flash.faultFree part).read (i * part.eraseSize)
        (dev'.block (i * part.eraseSize))).1 = some data := by
  have hfirst : Intact part img first.block := by
    refine Or.inl fun hread => hdiffers ?_
    rw [run_readSession_header hflash.sizes.1, hread]
    rfl
  have hholds := (safe_flashImage hflash ptn file
    (intact_of_runs hflash hfirst hruns)).post_of_reaches hsame rfl
  intro i data hdata
  have hlength : data.length = part.eraseSize :=
    toBlocks_length (List.mem_of_getElem? hdata)
  simp [Flash.faultFree, hholds i data hdata, hlength]

namespace FlashImageWitness

/-- Two blocks, each one byte longer than the header. -/
def small : Partition := ⟨4098, 2049, by decide⟩

def erased : Device := ⟨fun _ => ⟨List.replicate 2049 255, 0⟩, 0, 0⟩

def image : Bytes := List.replicate 2049 1

def flashed : Device :=
  ((Flash.faultFree small).run (flashImage small "boot" "boot.img" image)
    erased).2

theorem image_flashable : Flashable small image :=
  ⟨⟨1, by decide +kernel, by decide⟩, ⟨1, by decide +kernel, by decide⟩,
    ⟨1, by decide +kernel, by decide⟩⟩

/-- A full run, and the next one finds the image. -/
theorem second_run_reads_image :
    ((Flash.faultFree small).run (flashImage small "boot" "boot.img" image)
      flashed).1 = .headerSame ∧
    ∀ i data, (toBlocks small image)[i]? = some data →
      ((Flash.faultFree small).read (i * 2049)
        (((Flash.faultFree small).run
          (flashImage small "boot" "boot.img" image) flashed).2.block
            (i * 2049))).1 = some data := by
  have hanswers : ∀ c dev, calls small c dev
      ((Flash.faultFree small).handler c dev).1
      ((Flash.faultFree small).handler c dev).2 := fun _ _ => Or.inl rfl
  have hsame : ((Flash.faultFree small).run
      (flashImage small "boot" "boot.img" image) flashed).1 = .headerSame := by
    decide +kernel
  have hreach := Prog.reaches_eval (Flash.faultFree small).handler hanswers
    (flashImage small "boot" "boot.img" image)
  have hruns : Relation.ReflTransGen (CutOff small "boot" "boot.img" image)
      erased flashed :=
    .single ⟨_, _, hreach erased, by rw [flashed, Flash.run]⟩
  have hlast := hreach flashed
  rw [← Flash.run, hsame] at hlast
  have hreads := headerSame_reads_image image_flashable (by decide +kernel)
    hruns hlast
  have hsize : small.eraseSize = 2049 := rfl
  rw [hsize] at hreads
  exact ⟨hsame, hreads⟩

end FlashImageWitness

end FlashImage

end MetaOS
