/-
When `flash_image` puts an image on fault-free flash.

Both passes take their data over and close, so each of them leaves the blocks
of its data at the start of the partition.  The second pass reads the first
blocks of the image in full; an image that ends within them stops it.
-/
import MetaOS.FlashImage
import MetaOS.MtdWriteChunks

namespace MetaOS

namespace FlashImage

open Mtd

variable {part : Partition}

section HandingOver

variable {start : Nat → Block}

/-- Without faults one more block goes behind the others. -/
theorem faultFree_writeBlock_at (ctx : WriteContext) {blocks : List Bytes}
    {data : Bytes} {dev : Device} (hat : At part start blocks dev)
    (hdata : data.length = part.eraseSize)
    (hroom : (blocks.length + 1) * part.eraseSize ≤ part.limit) :
    ((Flash.faultFree part).run (writeBlock part ctx data) dev).1 =
        (true, ctx) ∧
      At part start (blocks ++ [data])
        ((Flash.faultFree part).run (writeBlock part ctx data) dev).2 := by
  have hfits : dev.filePos + part.eraseSize ≤ part.limit := by
    rw [hat.filePos, ← Nat.succ_mul]
    exact hroom
  have hok := (faultFree_writeBlock ctx hdata hfits).1
  have hendures : Endures part start (blocks.flatten ++ data)
      fun _ => True := by
    constructor
    · intro _ _ _ _ _
      trivial
    · intro _ _ _ _ _ _ _ _ _
      trivial
  have hsafe := (safe_writeBlock hendures ctx hat hdata
    List.prefix_rfl).post_of_reaches
      (Prog.reaches_eval (Flash.faultFree part).handler
        (fun _ _ => Or.inl rfl) _ _)
  exact ⟨hok, (hsafe (congrArg Prod.fst hok)).2⟩

/-- A block that does not fit is not written. -/
theorem run_writeBlock_full (flash : Flash part) (ctx : WriteContext)
    (data : Bytes) {dev : Device}
    (hfull : part.limit < dev.filePos + part.eraseSize) :
    flash.run (writeBlock part ctx data) dev = ((false, ctx), dev) := by
  have hnone : part.blocksFrom dev.filePos = 0 := by
    rw [Partition.blocksFrom]
    apply Nat.div_eq_of_lt
    have hsize := part.eraseSize_pos
    omega
  simp [writeBlock, hnone, writeBlockLoop]

/-- Without faults blocks are handed over as long as there is room. -/
theorem faultFree_handBlocks (ctx : WriteContext) {blocks more : List Bytes}
    {dev : Device} (hat : At part start blocks dev)
    (hmore : ∀ block ∈ more, block.length = part.eraseSize)
    (hroom : more ≠ [] →
      (blocks.length + more.length) * part.eraseSize ≤ part.limit) :
    ((Flash.faultFree part).run (handBlocks part ctx more) dev).1 =
        some ctx ∧
      At part start (blocks ++ more)
        ((Flash.faultFree part).run (handBlocks part ctx more) dev).2 := by
  induction more generalizing blocks dev with
  | nil =>
      rw [List.append_nil]
      exact ⟨rfl, hat⟩
  | cons block more ih =>
      have hall := hroom (List.cons_ne_nil block more)
      rw [List.length_cons, ← Nat.add_assoc, Nat.add_right_comm] at hall
      have hfirst : (blocks.length + 1) * part.eraseSize ≤ part.limit :=
        (Nat.mul_le_mul_right _ (Nat.le_add_right _ _)).trans hall
      obtain ⟨hok, hnext⟩ := faultFree_writeBlock_at ctx hat
        (hmore block List.mem_cons_self) hfirst
      have hrest := ih hnext
        (fun data hdata => hmore data (List.mem_cons_of_mem _ hdata))
        (fun _ => by rwa [List.length_append, List.length_singleton])
      rw [List.append_assoc, List.singleton_append] at hrest
      simp only [handBlocks, Prog.andThen, Prog.whenOk, Flash.run_bind, hok,
        Flash.run_ret, if_true]
      exact hrest

/-- The blocks do not all fit. -/
theorem faultFree_handBlocks_full (ctx : WriteContext)
    {blocks more : List Bytes} {dev : Device} (hat : At part start blocks dev)
    (hmore : ∀ block ∈ more, block.length = part.eraseSize)
    (hsome : more ≠ [])
    (hfull : part.limit < (blocks.length + more.length) * part.eraseSize) :
    ((Flash.faultFree part).run (handBlocks part ctx more) dev).1 = none := by
  induction more generalizing blocks dev with
  | nil => exact absurd rfl hsome
  | cons block more ih =>
      by_cases hfirst :
          (blocks.length + 1) * part.eraseSize ≤ part.limit
      · obtain ⟨hok, hnext⟩ := faultFree_writeBlock_at ctx hat
          (hmore block List.mem_cons_self) hfirst
        have hrest : more ≠ [] := by
          rintro rfl
          exact absurd hfirst (Nat.not_le_of_lt hfull)
        simp only [handBlocks, Prog.andThen, Prog.whenOk, Flash.run_bind, hok,
          Flash.run_ret, if_true]
        refine ih hnext
          (fun data hdata => hmore data (List.mem_cons_of_mem _ hdata)) hrest ?_
        rw [List.length_append, List.length_singleton, Nat.add_right_comm,
          Nat.add_assoc]
        exact hfull
      · have hstuck : (Flash.faultFree part).run (writeBlock part ctx block)
            dev = ((false, ctx), dev) := by
          apply run_writeBlock_full
          rw [hat.filePos, ← Nat.succ_mul]
          exact Nat.lt_of_not_le hfirst
        simp only [handBlocks, Prog.andThen, Prog.whenOk, Flash.run_bind,
          hstuck, Flash.run_ret, Bool.false_eq_true, if_false,
          Prog.pure_eq_ret]

/-- Without faults all blocks are handed over when they fit. -/
theorem faultFree_handOver (count : Nat) {blocks : List Bytes} {dev : Device}
    (hpos : dev.filePos = 0)
    (hblocks : ∀ block ∈ blocks, block.length = part.eraseSize)
    (hroom : blocks.length * part.eraseSize ≤ part.limit) :
    ((Flash.faultFree part).run (handOver part count blocks) dev).1 = true ∧
      Laid part dev.block blocks
        ((Flash.faultFree part).run (handOver part count blocks)
          dev).2.block := by
  have hat : At part dev.block [] dev := ⟨by simp, Laid.nil _, by simp [hpos]⟩
  have hlength : (blocks.take count).length + (blocks.drop count).length =
      blocks.length := by
    rw [← List.length_append, List.take_append_drop]
  have htake : (blocks.take count).length * part.eraseSize ≤ part.limit :=
    (Nat.mul_le_mul_right _ (by omega)).trans hroom
  obtain ⟨hfirst, hmid⟩ := faultFree_handBlocks ⟨[], []⟩ hat
    (fun block hmem => hblocks block (List.mem_of_mem_take hmem))
    (fun _ => by rwa [List.length_nil, Nat.zero_add])
  obtain ⟨hsecond, hend⟩ := faultFree_handBlocks ⟨[], []⟩ hmid
    (fun block hmem => hblocks block (List.mem_of_mem_drop hmem))
    (fun _ => by rwa [List.nil_append, hlength])
  rw [List.nil_append, List.take_append_drop] at hend
  simp only [handOver, Flash.run_bind, hfirst, hsecond, Option.isSome_some,
    if_true, Flash.run_lseekCur, Flash.run_closeDevice, Prog.pure_eq_ret,
    Flash.run_ret, Bool.and_self, true_and]
  exact hend.laid

/-- Without faults nothing else stops the writer. -/
theorem faultFree_handOver_full (count : Nat) {blocks : List Bytes}
    {dev : Device} (hpos : dev.filePos = 0)
    (hblocks : ∀ block ∈ blocks, block.length = part.eraseSize)
    (hsome : blocks ≠ [])
    (hfull : part.limit < blocks.length * part.eraseSize) :
    ((Flash.faultFree part).run (handOver part count blocks) dev).1 =
      false := by
  have hat : At part dev.block [] dev := ⟨by simp, Laid.nil _, by simp [hpos]⟩
  have hlength : (blocks.take count).length + (blocks.drop count).length =
      blocks.length := by
    rw [← List.length_append, List.take_append_drop]
  have htake : ∀ block ∈ blocks.take count, block.length = part.eraseSize :=
    fun block hmem => hblocks block (List.mem_of_mem_take hmem)
  by_cases hfirst : blocks.take count ≠ [] ∧
      part.limit < (blocks.take count).length * part.eraseSize
  · have hnone := faultFree_handBlocks_full ⟨[], []⟩ hat htake hfirst.1
      (by rw [List.length_nil, Nat.zero_add]; exact hfirst.2)
    simp only [handOver, Flash.run_bind, hnone, Prog.pure_eq_ret,
      Flash.run_ret]
  · obtain ⟨hok, hmid⟩ := faultFree_handBlocks ⟨[], []⟩ hat htake
      (fun hne => by
        rw [List.length_nil, Nat.zero_add]
        exact Nat.le_of_not_lt fun hlt => hfirst ⟨hne, hlt⟩)
    have hrest : blocks.drop count ≠ [] := by
      intro hnil
      rw [hnil, List.length_nil, Nat.add_zero] at hlength
      refine hfirst ⟨?_, by rwa [hlength]⟩
      exact List.length_pos_iff.mp
        (hlength ▸ List.length_pos_iff.mpr hsome)
    have hnone := faultFree_handBlocks_full ⟨[], []⟩ hmid
      (fun block hmem => hblocks block (List.mem_of_mem_drop hmem)) hrest
      (by rwa [List.nil_append, hlength])
    simp only [handOver, Flash.run_bind, hok, hnone, Option.isSome_none,
      Bool.false_eq_true, if_false, Prog.pure_eq_ret, Flash.run_ret,
      Bool.false_and]

end HandingOver

section Passes

/-- What follows the data of two calls. -/
theorem takeOver_append_bind {α : Type} (ctx : WriteContext)
    (first second : Bytes) (next : Option WriteContext → MtdProg α) :
    (takeOver part ctx (first ++ second) >>= next) =
      takeOver part ctx first >>= fun taken =>
        match taken with
        | none => next none
        | some ctx => takeOver part ctx second >>= next := by
  rw [takeOver_append, Prog.andThen, bind_assoc]
  congr 1
  funext taken
  cases taken with
  | none => rfl
  | some ctx => rfl

/-- One call takes its data over, and the loop goes on from there. -/
theorem mtdWriteData_bind {α : Type} {ctx : WriteContext} {buf rest : Bytes}
    {bad : α} (next : WriteContext → MtdProg α)
    (last : Option WriteContext → MtdProg α)
    (hroom : ctx.pending.length < part.eraseSize)
    (hbad : last none = pure bad)
    (hnext : ∀ ctx', ctx'.pending.length < part.eraseSize →
      next ctx' = takeOver part ctx' rest >>= last) :
    (mtdWriteData part ctx buf >>= fun r =>
      if r.1 then next r.2 else pure bad) =
      takeOver part ctx (buf ++ rest) >>= last := by
  rw [takeOver_append_bind]
  refine (Prog.bind_of_whenOk _ next bad).trans ?_
  rw [mtdWriteData_eq part buf hroom]
  refine (takeOver_room part ctx buf).bind_congr ?_
  intro taken htaken
  cases taken with
  | none => exact hbad.symm
  | some ctx' => exact hnext ctx' (htaken ctx' rfl)

/-- How a copy loop ends. -/
def copied (ptn : String) :
    Option WriteContext → MtdProg (Except String WriteContext)
  | none => pure (.error ("error writing " ++ ptn))
  | some ctx => pure (.ok ctx)

/-- The chunks of the file are taken over one by one. -/
theorem copyFile_eq (ptn : String) (fuel : Nat) (ctx : WriteContext)
    (unread : Bytes) (hroom : ctx.pending.length < part.eraseSize)
    (hfuel : unread.length ≤ fuel) :
    copyFile part ptn fuel ctx unread =
      takeOver part ctx unread >>= copied ptn := by
  induction fuel generalizing ctx unread with
  | zero =>
      obtain rfl := List.eq_nil_of_length_eq_zero (Nat.le_zero.mp hfuel)
      rw [takeOver_nil part hroom]
      rfl
  | succ fuel ih =>
      rw [copyFile]
      split
      · rename_i hnil
        rw [hnil, takeOver_nil part hroom]
        rfl
      · rename_i hsome
        have hlength := List.length_pos_iff.mpr hsome
        have hrest : (unread.drop headerSize).length ≤ fuel := by
          rw [List.length_drop, headerSize]
          omega
        conv_rhs => rw [← List.take_append_drop headerSize unread]
        exact mtdWriteData_bind
          (fun ctx' => copyFile part ptn fuel ctx' (unread.drop headerSize))
          (copied ptn) hroom rfl fun ctx' hroom' => ih ctx' _ hroom' hrest

/-- One chunk of the first blocks. -/
theorem chunk_length {left : Nat} {unread : Bytes} (hleft : left ≠ 0)
    (hsome : unread ≠ []) :
    0 < (unread.take (min headerSize left)).length ∧
      (unread.take (min headerSize left)).length ≤ left ∧
      (left ≤ unread.length → (unread.take (min headerSize left)).length =
        min headerSize left) := by
  have hlength := List.length_pos_iff.mpr hsome
  rw [List.length_take, headerSize]
  omega

theorem copyBlock_eq (ptn file : String) (fuel left : Nat)
    (ctx : WriteContext) (unread : Bytes)
    (hroom : ctx.pending.length < part.eraseSize) (hfuel : left ≤ fuel)
    (hleft : left ≤ unread.length) :
    copyBlock part ptn file fuel left ctx unread =
      takeOver part ctx (unread.take left) >>= copied ptn := by
  induction fuel generalizing left ctx unread with
  | zero =>
      obtain rfl := Nat.le_zero.mp hfuel
      rw [List.take_zero, takeOver_nil part hroom]
      rfl
  | succ fuel ih =>
      rw [copyBlock]
      split
      · rename_i hnone
        rw [hnone, List.take_zero, takeOver_nil part hroom]
        rfl
      · rename_i hmore
        have hsome : unread ≠ [] := by
          rintro rfl
          exact hmore (Nat.le_zero.mp hleft)
        obtain ⟨hpos, hless, hwhole⟩ := chunk_length hmore hsome
        have hbuf := hwhole hleft
        rw [if_neg (List.length_pos_iff.mp hpos)]
        have hsplit : unread.take left =
            unread.take (min headerSize left) ++
              (unread.drop (unread.take (min headerSize left)).length).take
                (left - (unread.take (min headerSize left)).length) := by
          rw [hbuf, ← List.take_add, Nat.add_sub_of_le (Nat.min_le_right _ _)]
        rw [hsplit]
        refine mtdWriteData_bind (fun ctx' => copyBlock part ptn file fuel
          (left - (unread.take (min headerSize left)).length) ctx'
          (unread.drop (unread.take (min headerSize left)).length))
          (copied ptn) hroom rfl fun ctx' hroom' => ?_
        exact ih _ ctx' _ hroom' (by omega) (by
          rw [List.length_drop]
          omega)

/-- The image ends within the first blocks. -/
theorem copyBlock_short (ptn file : String) (fuel left : Nat)
    (ctx : WriteContext) (unread : Bytes) (hfuel : left ≤ fuel)
    (hleft : unread.length < left) :
    (copyBlock part ptn file fuel left ctx unread).Yields fun r =>
      r.isOk = false := by
  induction fuel generalizing left ctx unread with
  | zero => exact absurd hleft (by omega)
  | succ fuel ih =>
      rw [copyBlock, if_neg (by omega)]
      by_cases hsome : unread = []
      · rw [hsome, List.take_nil, if_pos rfl]
        rfl
      · obtain ⟨hpos, hless, -⟩ :=
          chunk_length (by omega : left ≠ 0) hsome
        rw [if_neg (List.length_pos_iff.mp hpos)]
        refine (Prog.yields_true _).bind fun r _ => ?_
        obtain ⟨ok, ctx'⟩ := r
        cases ok with
        | false => rfl
        | true =>
            have hmin : (unread.take (min headerSize left)).length ≤
                unread.length := List.length_take_le' _ _
            exact ih _ ctx' _ (by omega) (by
              rw [List.length_drop]
              omega)

variable (part) in
/-- How a pass ends. -/
def closePass (closing : String) :
    Except String WriteContext → MtdProg (Except String Unit)
  | .error message => pure (.error message)
  | .ok ctx => do
      if ← mtdWriteClose part ctx then pure (.ok ())
      else pure (.error closing)

theorem copied_closePass (ptn closing : String)
    (taken : Option WriteContext) :
    (copied ptn taken >>= fun r => closePass part closing r >>= fun r =>
      pure r.isOk) = closeTaken part taken := by
  cases taken with
  | none => rfl
  | some ctx =>
      refine Eq.trans ?_ (bind_pure (mtdWriteClose part ctx))
      refine Eq.trans (bind_assoc (mtdWriteClose part ctx) _ _) ?_
      congr 1
      funext closed
      cases closed with
      | false => rfl
      | true => rfl

/-- A pass hands the blocks of its data over. -/
theorem pass_isOk (ptn : String) {writing closing : String} {buf rest : Bytes}
    (body : WriteContext → MtdProg (Except String WriteContext))
    (hbody : ∀ ctx, ctx.pending.length < part.eraseSize →
      body ctx = takeOver part ctx rest >>= copied ptn) :
    ((do
      let (ok, ctx) ← mtdWriteData part ⟨[], []⟩ buf
      if ok then
        match ← body ctx with
        | .error message => pure (.error message)
        | .ok ctx =>
            if ← mtdWriteClose part ctx then pure (.ok ())
            else pure (.error closing)
      else pure (.error writing) : MtdProg (Except String Unit)) >>= fun r =>
        pure r.isOk) =
      handOver part ((buf ++ rest).length / part.eraseSize)
        (toBlocks part (buf ++ rest)) := by
  have hroom : (⟨[], []⟩ : WriteContext).pending.length < part.eraseSize :=
    part.eraseSize_pos
  have hpass : (mtdWriteData part ⟨[], []⟩ buf >>= fun r =>
      if r.1 then body r.2 >>= fun r => closePass part closing r >>= fun r =>
        pure r.isOk
      else pure false) =
      takeOver part ⟨[], []⟩ (buf ++ rest) >>= closeTaken part := by
    refine mtdWriteData_bind (fun ctx => body ctx >>= fun r =>
      closePass part closing r >>= fun r => pure r.isOk) (closeTaken part)
      hroom rfl fun ctx hroom => ?_
    rw [hbody ctx hroom, bind_assoc]
    congr 1
    exact funext (copied_closePass ptn closing)
  rw [← takeOver_close, ← hpass, bind_assoc]
  congr 1
  funext r
  obtain ⟨ok, ctx⟩ := r
  cases ok with
  | false => rfl
  | true =>
      simp only [if_true, bind_assoc]
      congr 1

theorem firstPass_isOk (part : Partition) (ptn : String) (img : Bytes) :
    (firstPass part ptn img >>= fun r => pure r.isOk) = (do
      if ← openDevice then
        handOver part ((zeroed img).length / part.eraseSize)
          (toBlocks part (zeroed img))
      else pure false) := by
  rw [firstPass, mtdWritePartition, bind_assoc, bind_assoc]
  congr 1
  funext opened
  cases opened with
  | false => rfl
  | true =>
      exact pass_isOk ptn _ fun ctx hroom =>
        copyFile_eq ptn _ ctx _ hroom le_rfl

/-- The first blocks of the image, which the second pass writes. -/
theorem secondPass_isOk (part : Partition) (ptn file : String) {img : Bytes}
    (hlong : (img.take headerSize).length +
      leftInBlock part (img.take headerSize).length ≤ img.length) :
    (secondPass part ptn file img >>= fun r => pure r.isOk) = (do
      if ← openDevice then
        handOver part ((img.take (headerSize +
            leftInBlock part (img.take headerSize).length)).length /
              part.eraseSize)
          (toBlocks part (img.take (headerSize +
            leftInBlock part (img.take headerSize).length)))
      else pure false) := by
  have hleft : leftInBlock part (img.take headerSize).length ≤
      (img.drop headerSize).length := by
    rw [List.length_drop]
    rw [List.length_take] at hlong ⊢
    omega
  rw [secondPass, mtdWritePartition, bind_assoc, bind_assoc, List.take_add]
  congr 1
  funext opened
  cases opened with
  | false => rfl
  | true =>
      exact pass_isOk ptn _ fun ctx hroom =>
        copyBlock_eq ptn file _ _ ctx _ hroom le_rfl hleft

/-- A short image stops the second pass. -/
theorem secondPass_short (part : Partition) (ptn file : String) {img : Bytes}
    (hshort : ¬ (img.take headerSize).length +
      leftInBlock part (img.take headerSize).length ≤ img.length) :
    (secondPass part ptn file img).Yields fun r => r.isOk = false := by
  have hless : (img.drop headerSize).length <
      leftInBlock part (img.take headerSize).length := by
    rw [List.length_drop]
    rw [List.length_take] at hshort ⊢
    omega
  refine (Prog.yields_true _).bind fun opened _ => ?_
  cases opened with
  | none => rfl
  | some ctx =>
      refine (Prog.yields_true _).bind fun r _ => ?_
      obtain ⟨ok, ctx⟩ := r
      cases ok with
      | false => rfl
      | true =>
          refine (copyBlock_short ptn file _ _ ctx _ le_rfl hless).bind ?_
          intro r hr
          cases r with
          | error message => rfl
          | ok ctx => cases hr

end Passes

section Result

/-- Header and rest come to whole blocks. -/
theorem dvd_header_left (part : Partition) (headerlen : Nat) :
    part.eraseSize ∣ headerlen + leftInBlock part headerlen := by
  have hsize := part.eraseSize_pos
  rw [leftInBlock]
  split
  · rename_i hle
    rw [Nat.add_sub_of_le hle]
  · have hmod := Int.emod_nonneg ((part.eraseSize : Int) - headerlen)
      (by omega : (part.eraseSize : Int) ≠ 0)
    rw [← Int.natCast_dvd_natCast]
    push_cast
    rw [Int.toNat_of_nonneg hmod]
    have hdiv := Int.emod_add_mul_ediv
      ((part.eraseSize : Int) - headerlen) part.eraseSize
    refine ⟨1 - ((part.eraseSize : Int) - headerlen) / part.eraseSize, ?_⟩
    rw [Int.mul_sub]
    omega

variable (part) in
/-- `flash_image` exits with status 0, and the blocks hold the image. -/
def Flashes (ptn file : String) (img : Bytes) (dev : Device) : Prop :=
  ((Flash.faultFree part).run (flashImage part ptn file img) dev).1 =
      .flashed ∧
    HoldsImage part img
      ((Flash.faultFree part).run (flashImage part ptn file img) dev).2.block

/-- What the two passes leave behind, each from the blocks of its data. -/
theorem holdsImage_of_passes {img : Bytes} {len : Nat}
    {before middle now : Nat → Block} (hdvd : part.eraseSize ∣ len)
    (hlen : len ≤ img.length) (hheader : (img.take headerSize).length ≤ len)
    (hfirst : Laid part before (toBlocks part (zeroed img)) middle)
    (hsecond : Laid part middle (toBlocks part (img.take len)) now) :
    HoldsImage part img now := by
  have hsize := part.eraseSize_pos
  have htake : (img.take len).length = len := List.length_take_of_le hlen
  have himage : toBlocks part img =
      toBlocks part (img.take len) ++ toBlocks part (img.drop len) := by
    conv_lhs => rw [← List.take_append_drop len img]
    exact toBlocks_append part _ (htake.symm ▸ hdvd)
  -- the first pass puts the same blocks behind the first `len` bytes
  have hfront : ((zeroed img).take len).length = len := by
    rw [List.length_take_of_le]
    rw [zeroed, List.length_append, List.length_replicate, List.length_drop,
      List.length_take]
    omega
  have hrest : (zeroed img).drop len = img.drop len := by
    rw [List.length_take] at hheader
    rw [zeroed, List.drop_append, List.length_replicate,
      List.drop_of_length_le (by
        rw [List.length_replicate, List.length_take]
        omega), List.nil_append, List.drop_drop, List.length_take]
    by_cases hshort : headerSize ≤ img.length
    · rw [Nat.min_eq_left hshort] at hheader ⊢
      rw [Nat.add_sub_of_le hheader]
    · rw [List.drop_of_length_le (by omega), List.drop_of_length_le (by omega)]
  have hzeroed : toBlocks part (zeroed img) =
      toBlocks part ((zeroed img).take len) ++
        toBlocks part (img.drop len) := by
    conv_lhs => rw [← List.take_append_drop len (zeroed img), hrest]
    exact toBlocks_append part _ (hfront.symm ▸ hdvd)
  have hcount : (toBlocks part ((zeroed img).take len)).length =
      (toBlocks part (img.take len)).length := by
    rw [toBlocks_count, toBlocks_count, hfront, htake]
  intro i data hdata
  rw [himage] at hdata
  by_cases hi : i < (toBlocks part (img.take len)).length
  · rw [List.getElem?_append_left hi] at hdata
    exact hsecond.written i data hdata
  · have hbehind := Nat.le_of_not_lt hi
    rw [hsecond.kept (i * part.eraseSize)]
    · apply hfirst.written i data
      rw [hzeroed, List.getElem?_append_right (hcount ▸ hbehind), hcount]
      rwa [List.getElem?_append_right hbehind] at hdata
    · intro j hj hsame
      have := Nat.eq_of_mul_eq_mul_right hsize hsame
      omega

theorem zeroed_length (img : Bytes) : (zeroed img).length = img.length := by
  rw [zeroed, List.length_append, List.length_replicate, List.length_take,
    List.length_drop]
  omega

/-- The first pass on fault-free flash. -/
theorem run_firstPass (part : Partition) (ptn : String) (img : Bytes)
    (dev : Device) :
    (((Flash.faultFree part).run (firstPass part ptn img) dev).1.isOk,
      ((Flash.faultFree part).run (firstPass part ptn img) dev).2) =
    (Flash.faultFree part).run
      (handOver part (img.length / part.eraseSize)
        (toBlocks part (zeroed img))) { dev with filePos := 0 } := by
  have hrun := congrArg (fun prog => (Flash.faultFree part).run prog dev)
    (firstPass_isOk part ptn img)
  simp only [Prog.pure_eq_ret, Flash.run_bind, Flash.run_ret,
    Flash.run_openDevice, if_true, zeroed_length] at hrun
  exact hrun

/-- The second pass, when the image is long enough. -/
theorem run_secondPass (ptn file : String) {img : Bytes} (dev : Device)
    (hlong : (img.take headerSize).length +
      leftInBlock part (img.take headerSize).length ≤ img.length) :
    ∃ len, part.eraseSize ∣ len ∧ len ≤ img.length ∧
      (img.take headerSize).length ≤ len ∧
      (((Flash.faultFree part).run (secondPass part ptn file img)
          dev).1.isOk,
        ((Flash.faultFree part).run (secondPass part ptn file img) dev).2) =
      (Flash.faultFree part).run
        (handOver part (len / part.eraseSize)
          (toBlocks part (img.take len))) { dev with filePos := 0 } := by
  have hrun := congrArg (fun prog => (Flash.faultFree part).run prog dev)
    (secondPass_isOk part ptn file hlong)
  have hdvd := dvd_header_left part (img.take headerSize).length
  have hsame : img.take (headerSize +
      leftInBlock part (img.take headerSize).length) =
      img.take ((img.take headerSize).length +
        leftInBlock part (img.take headerSize).length) := by
    by_cases hshort : headerSize ≤ img.length
    · rw [List.length_take_of_le hshort]
    · have hall : img.take headerSize = img :=
        List.take_of_length_le (by omega)
      rw [hall, List.take_of_length_le (by omega),
        List.take_of_length_le (by omega)]
  rw [hsame] at hrun
  simp only [Prog.pure_eq_ret, Flash.run_bind, Flash.run_ret,
    Flash.run_openDevice, if_true, List.length_take_of_le hlong] at hrun
  exact ⟨_, hdvd, hlong, Nat.le_add_right _ _, hrun⟩

/-- The outcome, pass by pass. -/
theorem run_flashImage (ptn file : String) {img : Bytes}
    {dev start middle stop : Device} {first second : Except String Unit}
    (hsome : img ≠ [])
    (hstart : (Flash.faultFree part).run
      (checkHeader part (img.take headerSize)) dev = (false, start))
    (hfirst : (Flash.faultFree part).run (firstPass part ptn img) start =
      (first, middle))
    (hsecond : (Flash.faultFree part).run (secondPass part ptn file img)
      middle = (second, stop)) :
    (((Flash.faultFree part).run (flashImage part ptn file img) dev).1 =
        .flashed ↔ first.isOk = true ∧ second.isOk = true) ∧
      (first.isOk = true →
        ((Flash.faultFree part).run (flashImage part ptn file img) dev).2 =
          stop) := by
  have hheader : img.take headerSize ≠ [] := by
    intro hnil
    rcases List.take_eq_nil_iff.mp hnil with hzero | himg
    · rw [headerSize] at hzero
      cases hzero
    · exact hsome himg
  simp only [flashImage, if_neg hheader, Flash.run_bind, hstart,
    Bool.false_eq_true, if_false, hfirst]
  cases first with
  | error message => simp [Except.isOk, Except.toBool]
  | ok value =>
      simp only [Flash.run_bind, hsecond]
      cases second with
      | error message => simp [Except.isOk, Except.toBool]
      | ok value => simp [Except.isOk, Except.toBool]

/-- On fault-free flash whose header differs, `flash_image` writes an image
exactly when its blocks fit, the partition is smaller than 2 GiB and the image
does not end within the blocks its header is in. -/
theorem flashes_iff (ptn file : String) {img : Bytes} {dev : Device}
    (hsome : img ≠ [])
    (hdiffers : ((Flash.faultFree part).run
      (checkHeader part (img.take headerSize)) dev).1 = false) :
    Flashes part ptn file img dev ↔
      (toBlocks part img).length * part.eraseSize ≤ part.size ∧
      part.size < 2 ^ 31 ∧
      (img.take headerSize).length +
        leftInBlock part (img.take headerSize).length ≤ img.length := by
  obtain ⟨start, hstart⟩ : ∃ start, (Flash.faultFree part).run
      (checkHeader part (img.take headerSize)) dev = (false, start) :=
    ⟨_, Prod.ext hdiffers rfl⟩
  obtain ⟨⟨first, middle⟩, hfirst⟩ : ∃ r, (Flash.faultFree part).run
      (firstPass part ptn img) start = r := ⟨_, rfl⟩
  obtain ⟨⟨second, stop⟩, hsecond⟩ : ∃ r, (Flash.faultFree part).run
      (secondPass part ptn file img) middle = r := ⟨_, rfl⟩
  obtain ⟨hflashed, hend⟩ :=
    run_flashImage ptn file hsome hstart hfirst hsecond
  have hsize := part.eraseSize_pos
  have hlength := List.length_pos_iff.mpr hsome
  have hcount : (toBlocks part (zeroed img)).length =
      (toBlocks part img).length := by
    rw [toBlocks_count, toBlocks_count, zeroed_length]
  have hblocks : 0 < (toBlocks part img).length := by
    rw [toBlocks_count]
    exact Nat.div_pos (by omega) hsize
  have hrun := run_firstPass part ptn img start
  rw [hfirst] at hrun
  have hstands : { start with filePos := 0 }.filePos = 0 := rfl
  have hfull : ∀ data, ∀ block ∈ toBlocks part data,
      block.length = part.eraseSize := fun data block => toBlocks_length
  constructor
  · intro hflashes
    obtain ⟨hok, hok'⟩ := hflashed.mp hflashes.1
    have hroom : (toBlocks part img).length * part.eraseSize ≤
        part.limit := by
      by_contra hlarge
      have hnone := faultFree_handOver_full (img.length / part.eraseSize)
        hstands (hfull (zeroed img))
        (List.length_pos_iff.mp (hcount ▸ hblocks))
        (hcount ▸ Nat.lt_of_not_le hlarge)
      rw [← hrun, hok] at hnone
      cases hnone
    refine ⟨hroom.trans part.limit_le, ?_, ?_⟩
    · by_contra hlarge
      have hpos := Nat.mul_pos hblocks hsize
      rw [Partition.limit, if_neg hlarge] at hroom
      omega
    · by_contra hshort
      have hnone := (secondPass_short part ptn file hshort).eval
        (Flash.faultFree part).handler middle
      rw [← Flash.run, hsecond, hok'] at hnone
      cases hnone
  · rintro ⟨hfits, hsmall, hlong⟩
    have hlimit : part.limit = part.size := if_pos hsmall
    obtain ⟨hok, hlaid⟩ := faultFree_handOver (img.length / part.eraseSize)
      hstands (hfull (zeroed img)) (by rwa [hlimit, hcount])
    rw [← hrun] at hok hlaid
    obtain ⟨len, hdvd, hlen, hheader, hrun'⟩ :=
      run_secondPass ptn file middle hlong
    rw [hsecond] at hrun'
    have hroom : (toBlocks part (img.take len)).length * part.eraseSize ≤
        part.limit := by
      rw [hlimit]
      refine le_trans (Nat.mul_le_mul_right _ ?_) hfits
      rw [toBlocks_count, toBlocks_count, List.length_take_of_le hlen]
      exact Nat.div_le_div_right (by omega)
    have hstands' : { middle with filePos := 0 }.filePos = 0 := rfl
    obtain ⟨hok', hlaid'⟩ := faultFree_handOver (len / part.eraseSize)
      hstands' (hfull (img.take len)) hroom
    rw [← hrun'] at hok' hlaid'
    refine ⟨hflashed.mpr ⟨hok, hok'⟩, ?_⟩
    rw [hend hok]
    exact holdsImage_of_passes hdvd hlen hheader hlaid hlaid'

end Result

namespace FlashImageRunsWitness

/-- Four blocks. -/
def boot : Partition := ⟨16384, 4096, by decide⟩

def erased : Device := ⟨fun _ => ⟨List.replicate 4096 255, 0⟩, 0, 0⟩

/-- A block and a half. -/
def image : Bytes := List.replicate 6144 1

theorem image_flashes : Flashes boot "boot" "boot.img" image erased :=
  (flashes_iff "boot" "boot.img" (by decide) (by decide +kernel)).mpr
    ⟨by decide +kernel, by decide, by decide +kernel⟩

def twoPage : Partition := ⟨2, 2, Nat.two_pos⟩

def blank : Device := ⟨fun _ => ⟨[], 0⟩, 0, 0⟩

/-- An image that is shorter than a block: its header is never written. -/
theorem short_image_dies :
    ((Flash.faultFree twoPage).run
        (flashImage twoPage "boot" "boot.img" [1]) blank).1 =
      .died "error reading boot.img" ∧
    (((Flash.faultFree twoPage).run
        (flashImage twoPage "boot" "boot.img" [1]) blank).2.block 0).content =
      [0, 0] ∧
    ¬ Flashes twoPage "boot" "boot.img" [1] blank := by
  have hdies : ((Flash.faultFree twoPage).run
      (flashImage twoPage "boot" "boot.img" [1]) blank).1 =
        .died "error reading boot.img" := by
    decide +kernel
  refine ⟨hdies, by decide +kernel, ?_⟩
  intro hflashes
  rw [Flashes, hdies] at hflashes
  cases hflashes.1

end FlashImageRunsWitness

end FlashImage

end MetaOS
