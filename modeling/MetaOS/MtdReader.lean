/-
What a read context returns.

`goodBlocks` is the sequence of blocks that successive `read_block` calls
settle on.  `mtd_read_data` hands out their bytes in the sizes it is asked
for.
-/
import MetaOS.Flash

namespace MetaOS

namespace Mtd

variable {part : Partition} (flash : Flash part)

/-- The block found is one that is taken, behind some that are not. -/
theorem nextGood_taken {block : Nat → Block} {blocks pos found : Nat}
    {data : Bytes}
    (hnext : flash.nextGood block blocks pos = some (found, data)) :
    ∃ skipped, skipped < blocks ∧ found = pos + skipped * part.eraseSize ∧
      flash.takes found (block found) = some data := by
  induction blocks generalizing pos with
  | zero => cases hnext
  | succ blocks ih =>
      rw [Flash.nextGood] at hnext
      split at hnext
      · cases hnext
      · cases htakes : flash.takes pos (block pos) with
        | none =>
            rw [htakes] at hnext
            obtain ⟨skipped, hlt, hfound, hdata⟩ := ih hnext
            refine ⟨skipped + 1, by omega, ?_, hdata⟩
            rw [hfound, Nat.succ_mul]
            omega
        | some data' =>
            rw [htakes] at hnext
            cases hnext
            exact ⟨0, by omega, by omega, htakes⟩

theorem nextGood_le {block : Nat → Block} {blocks pos found : Nat}
    {data : Bytes}
    (hnext : flash.nextGood block blocks pos = some (found, data)) :
    pos ≤ found := by
  obtain ⟨skipped, -, rfl, -⟩ := nextGood_taken flash hnext
  exact Nat.le_add_right pos _

theorem nextGood_room {block : Nat → Block} {blocks pos found : Nat}
    {data : Bytes}
    (hnext : flash.nextGood block blocks pos = some (found, data)) :
    found + part.eraseSize ≤ pos + blocks * part.eraseSize := by
  obtain ⟨skipped, hlt, rfl, -⟩ := nextGood_taken flash hnext
  have hmul : (skipped + 1) * part.eraseSize ≤ blocks * part.eraseSize :=
    Nat.mul_le_mul_right part.eraseSize hlt
  rw [Nat.succ_mul] at hmul
  omega

theorem nextGood_length {block : Nat → Block} {blocks pos found : Nat}
    {data : Bytes}
    (hnext : flash.nextGood block blocks pos = some (found, data)) :
    data.length = part.eraseSize := by
  obtain ⟨skipped, -, -, htakes⟩ := nextGood_taken flash hnext
  exact flash.read_length (flash.read_of_takes htakes)

/-- The next `count` blocks the reader settles on, with their offsets. -/
def goodBlocks (block : Nat → Block) :
    (count pos : Nat) → Option (List (Nat × Bytes))
  | 0, _ => some []
  | count + 1, pos =>
      match flash.nextGood block (part.blocksFrom pos) pos with
      | none => none
      | some (found, data) =>
          (goodBlocks block count (found + part.eraseSize)).map
            ((found, data) :: ·)

/-- The blocks that lie ahead of a device's file position. -/
def Ahead (dev : Device) (datas : List Bytes) : Prop :=
  (goodBlocks flash dev.block datas.length dev.filePos).map
    (List.map Prod.snd) = some datas

theorem goodBlocks_succ {block : Nat → Block} {count pos : Nat}
    {found : List (Nat × Bytes)}
    (hfound : goodBlocks flash block (count + 1) pos = some found) :
    ∃ offset data rest,
      flash.nextGood block (part.blocksFrom pos) pos = some (offset, data) ∧
      goodBlocks flash block count (offset + part.eraseSize) = some rest ∧
      found = (offset, data) :: rest := by
  rw [goodBlocks] at hfound
  cases hnext : flash.nextGood block (part.blocksFrom pos) pos with
  | none =>
      rw [hnext] at hfound
      cases hfound
  | some next =>
      obtain ⟨offset, data⟩ := next
      rw [hnext] at hfound
      obtain ⟨rest, hrest, hcons⟩ := Option.map_eq_some_iff.mp hfound
      exact ⟨offset, data, rest, rfl, hrest, hcons.symm⟩

/-- The blocks ahead lie in the partition. -/
theorem goodBlocks_room {block : Nat → Block} {count pos : Nat}
    {found : List (Nat × Bytes)}
    (hfound : goodBlocks flash block count pos = some found)
    (hsome : count ≠ 0) : pos + count * part.eraseSize ≤ part.limit := by
  induction count generalizing pos found with
  | zero => exact absurd rfl hsome
  | succ count ih =>
      obtain ⟨offset, data, rest, hnext, hrest, -⟩ :=
        goodBlocks_succ flash hfound
      have hle := nextGood_le flash hnext
      have hroom := nextGood_room flash hnext
      have hblocks : part.blocksFrom pos ≠ 0 := by
        intro hnone
        rw [hnone] at hnext
        cases hnext
      have hlimit := part.blocksFrom_mul_le hblocks
      rw [Nat.succ_mul]
      by_cases hlast : count = 0
      · subst hlast
        omega
      · have hlater := ih hrest hlast
        omega

theorem Ahead.length_lt {dev : Device} {datas : List Bytes}
    (hahead : Ahead flash dev datas) :
    datas.length * part.eraseSize < 2 ^ 31 := by
  obtain ⟨found, hfound, -⟩ := Option.map_eq_some_iff.mp hahead
  by_cases hnone : datas.length = 0
  · rw [hnone, Nat.zero_mul]
    decide
  · have hroom := goodBlocks_room flash hfound hnone
    rw [Partition.limit] at hroom
    split at hroom
    · omega
    · omega

theorem run_readOffsets (count : Nat) (dev : Device) :
    (flash.run (readOffsets part count) dev).1 =
      (goodBlocks flash dev.block count dev.filePos).map
        (List.map Prod.fst) := by
  induction count generalizing dev with
  | zero => rfl
  | succ count ih =>
      have hspec := flash.run_readBlock dev
      have hblock := flash.run_readBlock_block dev
      rw [readOffsets, goodBlocks]
      simp only [Flash.run_bind]
      cases hnext : flash.nextGood dev.block (part.blocksFrom dev.filePos)
          dev.filePos with
      | none =>
          rw [hnext] at hspec
          simp only at hspec
          simp [hspec]
      | some next =>
          obtain ⟨found, data⟩ := next
          rw [hnext] at hspec
          obtain ⟨hdata, hpos⟩ := hspec
          simp only [hdata, Flash.run_bind, Flash.run_lseekCur,
            Prog.pure_eq_ret, Flash.run_ret]
          rw [ih, hblock, hpos, Nat.add_sub_cancel, Option.map_map,
            Option.map_map]
          rfl

theorem Ahead.cons {dev : Device} {data : Bytes} {datas : List Bytes}
    (hahead : Ahead flash dev (data :: datas)) :
    (flash.run (readBlock part) dev).1 = some data ∧
      Ahead flash (flash.run (readBlock part) dev).2 datas := by
  have hspec := flash.run_readBlock dev
  unfold Ahead at *
  obtain ⟨found, hfound, hdatas⟩ := Option.map_eq_some_iff.mp hahead
  obtain ⟨offset, data', rest, hnext, hrest, rfl⟩ :=
    goodBlocks_succ flash hfound
  obtain ⟨rfl, rfl⟩ := List.cons.inj hdatas
  rw [hnext] at hspec
  obtain ⟨hdata, hpos⟩ := hspec
  rw [flash.run_readBlock_block, hpos, hdata, hrest]
  exact ⟨rfl, rfl⟩

theorem run_readDirect {dev : Device} {datas rest : List Bytes}
    (hahead : Ahead flash dev (datas ++ rest)) :
    (flash.run (readDirect part datas.length) dev).1 = some datas.flatten ∧
      Ahead flash (flash.run (readDirect part datas.length) dev).2 rest := by
  induction datas generalizing dev with
  | nil => exact ⟨rfl, hahead⟩
  | cons data datas ih =>
      obtain ⟨hdata, hnext⟩ := Ahead.cons flash hahead
      obtain ⟨hdatas, hrest⟩ := ih hnext
      rw [List.length_cons, readDirect]
      simp only [Flash.run_bind, hdata, hdatas, Prog.pure_eq_ret,
        Flash.run_ret, List.flatten_cons, true_and]
      exact hrest

/-- The bytes a read context will hand out next: the rest of its buffer, and
the blocks ahead. -/
structure Holds (ctx : ReadContext) (dev : Device) (stream : Bytes) :
    Prop where
  buffer_length : ctx.buffer.length = part.eraseSize
  consumed_le : ctx.consumed ≤ part.eraseSize
  blocks : ∃ datas, (∀ data ∈ datas, data.length = part.eraseSize) ∧
    Ahead flash dev datas ∧
    stream = ctx.buffer.drop ctx.consumed ++ datas.flatten

/-- The bytes left in the buffer. -/
def ReadContext.unread (ctx : ReadContext) : Bytes :=
  ctx.buffer.drop ctx.consumed

/-- The shape of every read context. -/
def ReadContext.Ready (part : Partition) (ctx : ReadContext) : Prop :=
  ctx.buffer.length = part.eraseSize ∧ ctx.consumed ≤ part.eraseSize

/-- A request that the buffer can serve. -/
theorem readLoop_buffered {fuel want : Nat} {ctx : ReadContext}
    (hwant : 0 < want) (hroom : ctx.consumed + want ≤ part.eraseSize) :
    readLoop part (fuel + 1) want ctx =
      pure (some (ctx.buffer.window ctx.consumed want),
        { ctx with consumed := ctx.consumed + want }) := by
  have hcopy : min want (part.eraseSize - ctx.consumed) = want := by omega
  have hne : want ≠ 0 := by omega
  rw [readLoop]
  simp [hcopy, hne, readDirect]

/-- A request that empties the buffer: whole blocks are read directly, and the
rest of the request comes from one more block. -/
theorem readLoop_beyond {fuel want left : Nat} {ctx : ReadContext}
    (hready : ctx.Ready part)
    (hwant : want = ctx.unread.length + left) (hleft : 0 < left) :
    readLoop part (fuel + 2) want ctx = (do
      let spent := { ctx with consumed := part.eraseSize }
      match ← readDirect part (left / part.eraseSize) with
      | none => pure (none, spent)
      | some direct =>
          if left % part.eraseSize = 0 then
            pure (some (ctx.unread ++ direct), spent)
          else
            match ← readBlock part with
            | none => pure (none, spent)
            | some buffer =>
                pure (some (ctx.unread ++ direct ++
                  buffer.take (left % part.eraseSize)),
                  ⟨buffer, left % part.eraseSize⟩)) := by
  have hsize := part.eraseSize_pos
  obtain ⟨hbuffer, hconsumed⟩ := hready
  have hunread : ctx.unread.length = part.eraseSize - ctx.consumed := by
    rw [ReadContext.unread, List.length_drop, hbuffer]
  have hne : want ≠ 0 := by omega
  have hcopy : min want (part.eraseSize - ctx.consumed) =
      part.eraseSize - ctx.consumed := by omega
  have hfull : ctx.consumed + (part.eraseSize - ctx.consumed) =
      part.eraseSize := by omega
  have hcopied : ctx.buffer.window ctx.consumed
      (part.eraseSize - ctx.consumed) = ctx.unread := by
    rw [Bytes.window, List.take_of_length_le]
    · rfl
    · rw [List.length_drop, hbuffer]
  have hrest : want - (part.eraseSize - ctx.consumed) = left := by omega
  have hmod : left - left / part.eraseSize * part.eraseSize =
      left % part.eraseSize := by
    have hdiv := Nat.div_add_mod left part.eraseSize
    rw [Nat.mul_comm] at hdiv
    omega
  rw [readLoop]
  simp only [hne, if_false, hcopy, hfull, hcopied, hrest, if_true, hmod]
  congr 1
  funext direct
  cases direct with
  | none => rfl
  | some direct =>
      by_cases hexact : left % part.eraseSize = 0
      · simp only [hexact, if_true]
      · simp only [hexact, if_false]
        congr 1
        funext buffer
        cases buffer with
        | none => rfl
        | some buffer =>
            have hserve := Nat.mod_lt left hsize
            simp only
            rw [readLoop_buffered (Nat.pos_of_ne_zero hexact)
              (by simp only [Nat.zero_add]; omega)]
            simp [Bytes.window]

theorem run_readLoop_buffered {fuel want : Nat} {ctx : ReadContext}
    (dev : Device) (hwant : 0 < want)
    (hroom : ctx.consumed + want ≤ part.eraseSize) :
    flash.run (readLoop part (fuel + 1) want ctx) dev =
      ((some (ctx.buffer.window ctx.consumed want),
        { ctx with consumed := ctx.consumed + want }), dev) := by
  rw [readLoop_buffered hwant hroom]
  rfl

theorem flatten_length_eq_mul {datas : List Bytes}
    (hdatas : ∀ data ∈ datas, data.length = part.eraseSize) :
    datas.flatten.length = datas.length * part.eraseSize := by
  rw [List.length_flatten, List.map_congr_left hdatas, List.map_const',
    List.sum_replicate, smul_eq_mul]

/-- A request that empties the buffer and goes on with the blocks ahead. -/
theorem run_readLoop_blocks {fuel want : Nat} {ctx : ReadContext}
    {dev : Device} {datas : List Bytes}
    (hbuffer : ctx.buffer.length = part.eraseSize)
    (hdatas : ∀ data ∈ datas, data.length = part.eraseSize)
    (hahead : Ahead flash dev datas)
    (hconsumed : ctx.consumed ≤ part.eraseSize)
    (hlong : part.eraseSize < ctx.consumed + want)
    (hwant : want ≤ (ctx.buffer.drop ctx.consumed ++ datas.flatten).length) :
    ∃ ctx' dev', flash.run (readLoop part (fuel + 2) want ctx) dev =
        ((some ((ctx.buffer.drop ctx.consumed ++ datas.flatten).take want),
          ctx'), dev') ∧
      Holds flash ctx' dev'
        ((ctx.buffer.drop ctx.consumed ++ datas.flatten).drop want) := by
  have hsize := part.eraseSize_pos
  have hflatten := flatten_length_eq_mul hdatas
  have hready : ctx.Ready part := ⟨hbuffer, hconsumed⟩
  have hunread : ctx.unread.length = part.eraseSize - ctx.consumed := by
    rw [ReadContext.unread, List.length_drop, hbuffer]
  obtain ⟨left, rfl⟩ : ∃ left, want = ctx.unread.length + left :=
    ⟨want - ctx.unread.length, by omega⟩
  have hpos : 0 < left := by omega
  have hdivmod := Nat.div_add_mod left part.eraseSize
  have hmod := Nat.mod_lt left hsize
  change ctx.unread.length + left ≤ (ctx.unread ++ datas.flatten).length
    at hwant
  rw [List.length_append, Nat.add_le_add_iff_left] at hwant
  have hblocks : left / part.eraseSize ≤ datas.length := by
    apply Nat.div_le_of_le_mul
    rw [Nat.mul_comm]
    omega
  obtain ⟨first, rest, rfl, hfirst⟩ : ∃ first rest, datas = first ++ rest ∧
      first.length = left / part.eraseSize :=
    ⟨datas.take _, datas.drop _, (List.take_append_drop _ _).symm,
      List.length_take_of_le hblocks⟩
  obtain ⟨hdirect, hrest⟩ := run_readDirect flash hahead
  have hdata : ∀ data ∈ rest, data.length = part.eraseSize :=
    fun data hmem => hdatas data (List.mem_append_right first hmem)
  -- what the buffer and the whole blocks give, and what is missing then
  have hgiven : (ctx.unread ++ first.flatten).length + left % part.eraseSize =
      ctx.unread.length + left := by
    rw [List.length_append, flatten_length_eq_mul
      fun data hmem => hdatas data (List.mem_append_left rest hmem), hfirst,
      Nat.mul_comm]
    omega
  have hstream : ctx.buffer.drop ctx.consumed ++ (first ++ rest).flatten =
      (ctx.unread ++ first.flatten) ++ rest.flatten := by
    rw [List.flatten_append, ← List.append_assoc]
    rfl
  rw [readLoop_beyond hready rfl hpos, hstream, ← hgiven]
  simp only [Flash.run_bind, ← hfirst, hdirect]
  generalize flash.run (readDirect part first.length) dev = direct at hrest ⊢
  by_cases hexact : left % part.eraseSize = 0
  · rw [if_pos hexact, hexact, Nat.add_zero]
    refine ⟨{ ctx with consumed := part.eraseSize }, direct.2, ?_, hbuffer,
      le_rfl, rest, hdata, hrest, ?_⟩
    · rw [List.take_left]
      rfl
    · rw [List.drop_left]
      simp [hbuffer]
  · rw [if_neg hexact]
    cases rest with
    | nil =>
        exfalso
        rw [List.append_nil] at hflatten hwant
        rw [hfirst, Nat.mul_comm] at hflatten
        omega
    | cons buffer rest =>
        obtain ⟨hread, hlater⟩ := Ahead.cons flash hrest
        have hfills : buffer.length = part.eraseSize :=
          hdata buffer List.mem_cons_self
        have hpartial : left % part.eraseSize ≤ buffer.length := by omega
        refine ⟨⟨buffer, left % part.eraseSize⟩,
          (flash.run (readBlock part) direct.2).2, ?_, hfills, hmod.le,
          rest, ?_, hlater, ?_⟩
        · simp only [Flash.run_bind, hread]
          rw [List.take_length_add_append, List.flatten_cons,
            List.take_append_of_le_length hpartial]
          rfl
        · intro data hmem
          exact hdata data (List.mem_cons_of_mem _ hmem)
        · rw [List.drop_length_add_append, List.flatten_cons,
            List.drop_append_of_le_length hpartial]

/-- **`mtd_read_data` hands out the stream.** -/
theorem run_mtdReadData {ctx : ReadContext} {dev : Device} {stream : Bytes}
    (hholds : Holds flash ctx dev stream) {len : Nat}
    (hlen : len ≤ stream.length) (hsmall : len < 2 ^ 31) :
    ∃ ctx' dev', flash.run (mtdReadData part ctx len) dev =
        ((some (stream.take len), ctx'), dev') ∧
      Holds flash ctx' dev' (stream.drop len) := by
  obtain ⟨hbuffer, hconsumed, datas, hdatas, hahead, rfl⟩ := hholds
  rw [mtdReadData, if_pos hsmall]
  cases len with
  | zero =>
      refine ⟨ctx, dev, ?_, hbuffer, hconsumed, datas, hdatas, hahead, rfl⟩
      simp [readLoop]
  | succ len =>
      by_cases hroom : ctx.consumed + (len + 1) ≤ part.eraseSize
      · have havail : len + 1 ≤ (ctx.buffer.drop ctx.consumed).length := by
          rw [List.length_drop]
          omega
        rw [run_readLoop_buffered flash dev (Nat.succ_pos len) hroom]
        refine ⟨{ ctx with consumed := ctx.consumed + (len + 1) }, dev, ?_,
          hbuffer, hroom, datas, hdatas, hahead, ?_⟩
        · rw [List.take_append_of_le_length havail, Bytes.window]
        · rw [List.drop_append_of_le_length havail, List.drop_drop]
      · exact run_readLoop_blocks flash hbuffer hdatas hahead hconsumed
          (by omega) hlen

/-- Successive reads return consecutive pieces of the stream. -/
theorem run_readAll {ctx : ReadContext} {dev : Device} {stream : Bytes}
    (hholds : Holds flash ctx dev stream) {lens : List Nat}
    (hlens : lens.sum ≤ stream.length) (hsmall : lens.sum < 2 ^ 31) :
    ∃ pieces, (flash.run (readAll part ctx lens) dev).1 = some pieces ∧
      pieces.map List.length = lens ∧
      pieces.flatten = stream.take lens.sum := by
  induction lens generalizing ctx dev stream with
  | nil => exact ⟨[], rfl, rfl, by simp⟩
  | cons len lens ih =>
      rw [List.sum_cons] at hlens hsmall
      obtain ⟨ctx', dev', hrun, hholds'⟩ :=
        run_mtdReadData flash hholds (by omega : len ≤ stream.length)
          (by omega)
      obtain ⟨pieces, hpieces, hlengths, hflatten⟩ :=
        ih hholds' (by rw [List.length_drop]; omega) (by omega)
      refine ⟨stream.take len :: pieces, ?_, ?_, ?_⟩
      · rw [readAll]
        simp [hrun, hpieces]
      · rw [List.map_cons, hlengths, List.length_take, Nat.min_eq_left]
        omega
      · rw [List.flatten_cons, hflatten, List.sum_cons, List.take_add]

/-- What `read_block` returned was the first block ahead. -/
theorem Ahead.of_readBlock {dev : Device} {data : Bytes}
    (hread : (flash.run (readBlock part) dev).1 = some data) :
    data.length = part.eraseSize ∧ ∀ {datas : List Bytes},
      Ahead flash (flash.run (readBlock part) dev).2 datas →
        Ahead flash dev (data :: datas) := by
  have hspec := flash.run_readBlock dev
  cases hnext : flash.nextGood dev.block (part.blocksFrom dev.filePos)
      dev.filePos with
  | none =>
      rw [hnext] at hspec
      simp only at hspec
      rw [hspec] at hread
      cases hread
  | some next =>
      obtain ⟨found, data'⟩ := next
      rw [hnext] at hspec
      obtain ⟨hdata, hpos⟩ := hspec
      rw [hdata] at hread
      cases hread
      refine ⟨nextGood_length flash hnext, fun {datas} hahead => ?_⟩
      unfold Ahead at hahead ⊢
      rw [flash.run_readBlock_block, hpos] at hahead
      rw [List.length_cons, goodBlocks, hnext]
      simp only [Option.map_map]
      obtain ⟨rest, hrest, rfl⟩ := Option.map_eq_some_iff.mp hahead
      rw [hrest]
      rfl

theorem Ahead.of_readDirect {blocks : Nat} {dev : Device} {bytes : Bytes}
    (hread : (flash.run (readDirect part blocks) dev).1 = some bytes) :
    ∃ datas : List Bytes, datas.flatten = bytes ∧
      (∀ data ∈ datas, data.length = part.eraseSize) ∧
      ∀ {rest}, Ahead flash (flash.run (readDirect part blocks) dev).2 rest →
        Ahead flash dev (datas ++ rest) := by
  induction blocks generalizing dev bytes with
  | zero =>
      cases hread
      exact ⟨[], rfl, by simp, fun h => h⟩
  | succ blocks ih =>
      rw [readDirect, Flash.run_bind] at hread
      cases hfirst : (flash.run (readBlock part) dev).1 with
      | none => simp [hfirst] at hread
      | some data =>
          obtain ⟨hlength, hahead⟩ := Ahead.of_readBlock flash hfirst
          simp only [hfirst, Flash.run_bind] at hread
          cases hlater : (flash.run (readDirect part blocks)
              (flash.run (readBlock part) dev).2).1 with
          | none => simp [hlater] at hread
          | some rest =>
              obtain ⟨datas, hflatten, hdatas, hbehind⟩ := ih hlater
              simp only [hlater, Prog.pure_eq_ret, Flash.run_ret,
                Option.some.injEq] at hread
              refine ⟨data :: datas, ?_, ?_, ?_⟩
              · rw [List.flatten_cons, hflatten, hread]
              · intro other hmem
                rcases List.mem_cons.mp hmem with rfl | hmem
                · exact hlength
                · exact hdatas other hmem
              · intro more hmore
                rw [readDirect, Flash.run_bind] at hmore
                simp only [hfirst, Flash.run_bind, hlater, Prog.pure_eq_ret,
                  Flash.run_ret] at hmore
                exact hahead (hbehind hmore)

theorem ReadContext.Ready.holds {ctx : ReadContext}
    (hready : ctx.Ready part) (dev : Device) :
    Holds flash ctx dev (ctx.buffer.drop ctx.consumed) :=
  ⟨hready.1, hready.2, [], by simp, rfl, by simp⟩

/-- A request that the buffer serves takes the front of what it holds. -/
theorem Holds.of_readLoop_buffered {fuel want : Nat} {ctx ctx' : ReadContext}
    {dev dev' : Device} {data : Bytes} (hready : ctx.Ready part)
    (hroom : ctx.consumed + want ≤ part.eraseSize)
    (hread : flash.run (readLoop part (fuel + 1) want ctx) dev =
      ((some data, ctx'), dev')) :
    ctx'.Ready part ∧ ∀ {stream}, Holds flash ctx' dev' stream →
      Holds flash ctx dev (data ++ stream) := by
  cases want with
  | zero =>
      simp only [readLoop, if_true, Prog.pure_eq_ret, Flash.run_ret,
        Prod.mk.injEq, Option.some.injEq] at hread
      obtain ⟨⟨rfl, rfl⟩, rfl⟩ := hread
      exact ⟨hready, fun h => h⟩
  | succ want =>
      rw [run_readLoop_buffered flash dev (Nat.succ_pos want) hroom] at hread
      cases hread
      refine ⟨⟨hready.1, hroom⟩, ?_⟩
      rintro stream ⟨-, -, later, hlater, hahead, rfl⟩
      refine ⟨hready.1, hready.2, later, hlater, hahead, ?_⟩
      rw [← List.append_assoc, Bytes.window, ← List.drop_drop,
        List.take_append_drop]

/-- Blocks that are read directly stand behind the buffer. -/
theorem Holds.of_blocks {ctx : ReadContext} {dev : Device}
    {datas later : List Bytes} (hready : ctx.Ready part)
    (hdatas : ∀ data ∈ datas, data.length = part.eraseSize)
    (hlater : ∀ data ∈ later, data.length = part.eraseSize)
    (hahead : Ahead flash dev (datas ++ later)) :
    Holds flash ctx dev (ctx.unread ++ datas.flatten ++ later.flatten) := by
  refine ⟨hready.1, hready.2, datas ++ later, ?_, hahead, ?_⟩
  · intro data hmem
    exact (List.mem_append.mp hmem).elim (hdatas data) (hlater data)
  · rw [List.flatten_append, List.append_assoc]
    rfl

/-- A request that empties the buffer takes it and the blocks behind it. -/
theorem Holds.of_readLoop_beyond {fuel left : Nat} {ctx ctx' : ReadContext}
    {dev dev' : Device} {data : Bytes} (hready : ctx.Ready part)
    (hleft : 0 < left)
    (hread : flash.run (readLoop part (fuel + 2) (ctx.unread.length + left)
      ctx) dev = ((some data, ctx'), dev')) :
    ctx'.Ready part ∧ ∀ {stream}, Holds flash ctx' dev' stream →
      Holds flash ctx dev (data ++ stream) := by
  have hmod := Nat.mod_lt left part.eraseSize_pos
  rw [readLoop_beyond hready rfl hleft, Flash.run_bind] at hread
  cases hdirect : (flash.run (readDirect part (left / part.eraseSize))
      dev).1 with
  | none => simp [hdirect] at hread
  | some direct =>
      obtain ⟨datas, rfl, hdatas, hbehind⟩ :=
        Ahead.of_readDirect flash hdirect
      simp only [hdirect] at hread
      by_cases hexact : left % part.eraseSize = 0
      · simp only [hexact, if_true, Prog.pure_eq_ret, Flash.run_ret,
          Prod.mk.injEq, Option.some.injEq] at hread
        obtain ⟨⟨rfl, rfl⟩, rfl⟩ := hread
        refine ⟨⟨hready.1, le_rfl⟩, ?_⟩
        rintro stream ⟨-, -, later, hlater, hahead, rfl⟩
        have hempty : ctx.buffer.drop part.eraseSize = [] :=
          List.drop_of_length_le (le_of_eq hready.1)
        rw [hempty, List.nil_append]
        exact Holds.of_blocks flash hready hdatas hlater (hbehind hahead)
      · simp only [hexact, if_false, Flash.run_bind] at hread
        cases hnext : (flash.run (readBlock part) (flash.run
            (readDirect part (left / part.eraseSize)) dev).2).1 with
        | none => simp [hnext] at hread
        | some buffer =>
            obtain ⟨hfills, hfirst⟩ := Ahead.of_readBlock flash hnext
            simp only [hnext, Prog.pure_eq_ret, Flash.run_ret,
              Prod.mk.injEq, Option.some.injEq] at hread
            obtain ⟨⟨rfl, rfl⟩, rfl⟩ := hread
            refine ⟨⟨hfills, hmod.le⟩, ?_⟩
            rintro stream ⟨-, -, later, hlater, hahead, rfl⟩
            have hwhole : ∀ other ∈ buffer :: later,
                other.length = part.eraseSize :=
              List.forall_mem_cons.mpr ⟨hfills, hlater⟩
            have hholds := Holds.of_blocks flash hready hdatas hwhole
              (hbehind (hfirst hahead))
            rw [List.flatten_cons] at hholds
            rw [List.append_assoc, ← List.append_assoc (buffer.take _),
              List.take_append_drop]
            exact hholds

/-- A read that succeeds has handed out the stream. -/
theorem Holds.of_read {ctx ctx' : ReadContext} {dev dev' : Device}
    {len : Nat} {data : Bytes} (hready : ctx.Ready part)
    (hread : flash.run (mtdReadData part ctx len) dev =
      ((some data, ctx'), dev')) :
    ctx'.Ready part ∧ ∀ {stream}, Holds flash ctx' dev' stream →
      Holds flash ctx dev (data ++ stream) := by
  rw [mtdReadData] at hread
  have hunread : ctx.unread.length = part.eraseSize - ctx.consumed := by
    rw [ReadContext.unread, List.length_drop, hready.1]
  split at hread
  · by_cases hroom : ctx.consumed + len ≤ part.eraseSize
    · exact Holds.of_readLoop_buffered flash hready hroom hread
    · have hconsumed := hready.2
      obtain ⟨left, hleft⟩ : ∃ left, len = ctx.unread.length + left :=
        ⟨len - ctx.unread.length, by omega⟩
      obtain ⟨fuel, hfuel⟩ : ∃ fuel, len + 1 = fuel + 2 :=
        ⟨len - 1, by omega⟩
      rw [hfuel, hleft] at hread
      exact Holds.of_readLoop_beyond flash hready (by omega) hread
  · cases hread
    exact ⟨hready, fun h => h⟩

theorem run_readDirect_block (blocks : Nat) (dev : Device) :
    (flash.run (readDirect part blocks) dev).2.block = dev.block := by
  induction blocks generalizing dev with
  | zero => rfl
  | succ blocks ih =>
      have hfirst := flash.run_readBlock_block dev
      rw [readDirect, Flash.run_bind]
      cases (flash.run (readBlock part) dev).1 with
      | none => exact hfirst
      | some data =>
          have hrest := ih (flash.run (readBlock part) dev).2
          simp only [Flash.run_bind]
          cases (flash.run (readDirect part blocks)
              (flash.run (readBlock part) dev).2).1 with
          | none => exact hrest.trans hfirst
          | some rest => exact hrest.trans hfirst

theorem run_readLoop_block (fuel want : Nat) (ctx : ReadContext)
    (dev : Device) :
    (flash.run (readLoop part fuel want ctx) dev).2.block = dev.block := by
  induction fuel generalizing want ctx dev with
  | zero => rfl
  | succ fuel ih =>
      rw [readLoop]
      by_cases hwant : want = 0
      · simp [hwant]
      · simp only [hwant, if_false, Flash.run_bind]
        generalize
          (if ctx.consumed + min want (part.eraseSize - ctx.consumed) =
              part.eraseSize then
            (want - min want (part.eraseSize - ctx.consumed)) / part.eraseSize
          else 0) = blocks
        have hdirect := run_readDirect_block flash blocks dev
        generalize flash.run (readDirect part blocks) dev = direct
          at hdirect ⊢
        cases direct.1 with
        | none => exact hdirect
        | some bytes =>
            simp only
            split
            · exact hdirect
            · have hblock := flash.run_readBlock_block direct.2
              simp only [Flash.run_bind]
              generalize flash.run (readBlock part) direct.2 = read
                at hblock ⊢
              cases read.1 with
              | none => exact hblock.trans hdirect
              | some buffer =>
                  simp only [Flash.run_bind, Prog.pure_eq_ret, Flash.run_ret]
                  exact (ih _ _ _).trans (hblock.trans hdirect)

theorem run_mtdReadData_block (ctx : ReadContext) (len : Nat)
    (dev : Device) :
    (flash.run (mtdReadData part ctx len) dev).2.block = dev.block := by
  rw [mtdReadData]
  split
  · exact run_readLoop_block flash _ _ _ _
  · rfl

end Mtd

end MetaOS
