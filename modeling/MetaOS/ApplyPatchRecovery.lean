/-
What is left when a run of `applypatch` is cut off.

`Recoverable` asks for a complete target, or for data that a later run can
patch, in the source or in the saved copy.  A run that resumes from the saved
copy to write a partition destroys it before it has read it for the backup;
the runs that do not are recoverable at every point.
-/
import MetaOS.ApplyPatchSource
import MetaOS.MtdRoundTrip

namespace MetaOS

namespace ApplyPatch

open FileSystem CString

section Definitions

variable (board : Board) (sha1 : Bytes → Bytes) (patchers : PatchFunctions)
  (args : Args)

/-- The data has a hash that is listed with a patch. -/
def Args.Listed (data : Bytes) : Prop :=
  (args.patchFor (sha1 data)).isSome = true

/-- The target is complete, or there is data to make it from. -/
def Recoverable (w : World) : Prop :=
  (∃ data, Contents board w args.target data ∧
    parseSha1 args.targetSha1Str = some (sha1 data)) ∨
  ∃ data, (Contents board w args.sourceFilename data ∨
    Contents board w CACHE_TEMP_SOURCE data) ∧ args.Listed sha1 data

/-- The patches are correct: on data with a listed hash, the patch function
returns 0 only after its sink has accepted the target, and it has hashed what
the sink accepted. -/
def CorrectPatches (target : Bytes) : Prop :=
  ∀ data patch prog, args.patchFor (sha1 data) = some patch →
    patchProgram patchers data patch.data = some prog →
    Prog.Safe sinkSem (fun _ => True)
      (fun r accepted => r.1 = 0 → r.2 = accepted ∧ accepted = target) prog []

/-- The names do not get into each other's way. -/
structure Args.Separate : Prop where
  target : args.target ≠ CACHE_TEMP_SOURCE
  source : isMtd args.sourceFilename = true ∨
    args.sourceFilename ≠ CACHE_TEMP_SOURCE ∧
      ¬ Expendable args.sourceFilename ∧
      (isMtd args.target = false → args.sourceFilename ≠ args.outname)

/-- If the source lies on the partition that is written, the target can be
read back from there. -/
def ReadsBack (w : World) (target : Bytes) : Prop :=
  isMtd args.target = true → isMtd args.sourceFilename = true →
    partitionName args.sourceFilename = partitionName args.target →
    Mtd.Agrees (board.flash (partitionName args.target))
      (w.device (partitionName args.target)).block
      ((board.part (partitionName args.target)).blocksFrom 0) 0
      (Mtd.toBlocks (board.part (partitionName args.target)) target)

/-- The saved copy could be used by a run from `w`. -/
def Resumable (w : World) : Prop :=
  ∃ data, Contents board w CACHE_TEMP_SOURCE data ∧ args.Listed sha1 data

/-- The answers the system may give in a run from `w` that does not resume a
write to a partition: it has no saved copy, or does not look at it. -/
def freshSem (w : World) : Prog.Semantics Syscall Answer World :=
  fun c w₁ r w₂ => sem board c w₁ r w₂ ∧
    (isMtd args.target = true → Resumable board sha1 args w →
      c ≠ .stat CACHE_TEMP_SOURCE)

end Definitions

section ReadBack

variable {part : Mtd.Partition} {flash : Mtd.Flash part}

/-- `WriteToMTDPartition` is a write session. -/
theorem run_writeSession_of_writePartition {data : Bytes}
    {dev dev' : Mtd.Device}
    (hrun : flash.run (writePartition part data) dev = (true, dev')) :
    ∃ ctx, flash.run (Mtd.writeSession part [data]) dev =
      (some ctx, dev') := by
  unfold writePartition at hrun
  unfold Mtd.writeSession
  simp only [Mtd.mtdWritePartition, Mtd.writeAll, Mtd.Flash.run_bind,
    Mtd.Flash.run_openDevice, if_true, Prog.pure_eq_ret, Mtd.Flash.run_ret]
    at hrun ⊢
  generalize flash.run (Mtd.mtdWriteData part ⟨[], []⟩ data)
    { dev with filePos := 0 } = wrote at hrun ⊢
  by_cases hwrote : wrote.1.1 = true
  · simp only [hwrote, if_true, Mtd.Flash.run_bind, Mtd.Flash.run_ret]
      at hrun ⊢
    generalize flash.run (Mtd.mtdEraseBlocks part wrote.1.2 (-1)) wrote.2 =
      erased at hrun ⊢
    by_cases herased : erased.1.1.isSome = true
    · simp only [herased, if_true, Mtd.Flash.run_bind, Mtd.Flash.run_ret]
        at hrun ⊢
      rw [hrun]
      exact ⟨_, rfl⟩
    · simp [herased] at hrun
  · simp [hwrote] at hrun

/-- A write that succeeds stores the data if writer and reader agree. -/
theorem stored_of_writePartition {data : Bytes} {dev dev' : Mtd.Device}
    (hrun : flash.run (writePartition part data) dev = (true, dev'))
    (hagrees : Mtd.Agrees flash dev.block (part.blocksFrom 0) 0
      (Mtd.toBlocks part data)) :
    Stored flash dev'.block data := by
  obtain ⟨ctx, hsession⟩ := run_writeSession_of_writePartition hrun
  obtain ⟨used, hwritten⟩ := Mtd.run_writeSession flash [data] dev
    (by rw [hsession])
  rw [hsession, List.flatten_singleton] at hwritten
  have hfound := hwritten.goodBlocks_of_agrees hagrees
  have hcount := hwritten.used_ge.2.2
  obtain ⟨padding, hpadded⟩ := Mtd.toBlocks_flatten part data
  refine ⟨Mtd.toBlocks part data, ?_, ⟨_, hpadded.symm⟩⟩
  rw [Mtd.Ahead, hfound, Option.map_some, List.map_snd_zip hcount.ge]

end ReadBack

section Recovery

variable {board : Board} {sha1 : Bytes → Bytes} {patchers : PatchFunctions}
  {args : Args} {w w' : World}

theorem Recoverable.of_same (hrecoverable : Recoverable board sha1 args w)
    (hsame : Same w w') : Recoverable board sha1 args w' := by
  rcases hrecoverable with ⟨data, hdata, hhash⟩ | ⟨data, hdata | hdata, hlisted⟩
  · exact Or.inl ⟨data, hdata.of_same hsame, hhash⟩
  · exact Or.inr ⟨data, Or.inl (hdata.of_same hsame), hlisted⟩
  · exact Or.inr ⟨data, Or.inr (hdata.of_same hsame), hlisted⟩

theorem Recoverable.of_source {data : Bytes} (hlisted : args.Listed sha1 data)
    (hdata : Contents board w args.sourceFilename data) :
    Recoverable board sha1 args w :=
  Or.inr ⟨data, Or.inl hdata, hlisted⟩

theorem Recoverable.of_cache {data : Bytes} (hlisted : args.Listed sha1 data)
    (hdata : Contents board w CACHE_TEMP_SOURCE data) :
    Recoverable board sha1 args w :=
  Or.inr ⟨data, Or.inr hdata, hlisted⟩

theorem cache_not_mtd : isMtd CACHE_TEMP_SOURCE = false := by decide

theorem contents_cache {data : Bytes} :
    Contents board w CACHE_TEMP_SOURCE data ↔
      ∃ file, w.files CACHE_TEMP_SOURCE = some file ∧ file.data = data := by
  rw [Contents, if_neg (by rw [cache_not_mtd]; simp)]

theorem not_among_cache {changed : Path → Prop} {flashed : Bytes → Prop}
    (hchanged : ¬ changed CACHE_TEMP_SOURCE) :
    ¬ Among changed flashed CACHE_TEMP_SOURCE := by
  rw [Among, if_neg (by rw [cache_not_mtd]; simp)]
  exact hchanged

theorem outname_ne_cache : args.outname ≠ CACHE_TEMP_SOURCE := by
  intro heq
  have hlast := congrArg List.getLast? heq
  rw [Args.outname, List.getLast?_append] at hlast
  revert hlast
  simp [ascii, CACHE_TEMP_SOURCE]

/-- The backup does not touch the source. -/
theorem Args.Separate.not_among_backUp (hseparate : args.Separate) :
    ¬ Among (fun path => Expendable path ∨ path = CACHE_TEMP_SOURCE)
      (fun _ => False) args.sourceFilename := by
  unfold Among
  split
  · exact id
  · rename_i hplain
    rcases hseparate.source with hmtd | ⟨hcache, hexpendable, -⟩
    · exact (hplain hmtd).elim
    · rintro (h | h)
      · exact hexpendable h
      · exact hcache h

/-- Neither does the output, if it goes to a file. -/
theorem Args.Separate.not_among_outname (hseparate : args.Separate)
    (hplain : isMtd args.target = false) :
    ¬ Among (· = args.outname) (fun _ => False) args.sourceFilename := by
  unfold Among
  split
  · exact id
  · rename_i hsource
    rcases hseparate.source with hmtd | ⟨-, -, hout⟩
    · exact (hsource hmtd).elim
    · exact hout hplain

/-- Where the data in use can still be found: in the source until it has been
moved, in the saved copy otherwise. -/
def Backed (board : Board) (args : Args) (sel : Selection) (data : Bytes)
    (madeCopy : Bool) (w : World) : Prop :=
  if sel.fromSource = true ∧ madeCopy = false then
    Contents board w args.sourceFilename data
  else Contents board w CACHE_TEMP_SOURCE data

section Loop

variable {sel : Selection} {data : Bytes} {madeCopy : Bool}
  (hlisted : args.Listed sha1 data)

include hlisted

theorem Backed.recoverable (hbacked : Backed board args sel data madeCopy w) :
    Recoverable board sha1 args w := by
  unfold Backed at hbacked
  split at hbacked
  · exact Recoverable.of_source hlisted hbacked
  · exact Recoverable.of_cache hlisted hbacked

/-- The backup keeps the source and ends with the data in the copy. -/
theorem safe_backUp_recoverable (hseparate : args.Separate)
    (hsource : Contents board w args.sourceFilename data)
    (hdata : sel.sourceFile.data = .live data)
    (hsize : sel.sourceFile.size = data.length) :
    Prog.Safe (sem board) (Recoverable board sha1 args)
      (fun ok w' => Contents board w' args.sourceFilename data ∧
        (∀ name, (w'.device name).block = (w.device name).block) ∧
        (ok = true → Contents board w' CACHE_TEMP_SOURCE data))
      (backUp sel.sourceFile) w := by
  have hsafe : Prog.Safe (sem board)
      (Kept (fun path => Expendable path ∨ path = CACHE_TEMP_SOURCE)
        (fun _ => False) w) _ (backUp sel.sourceFile) w :=
    safe_backUp sel.sourceFile (fun _ h => Or.inl h) (Or.inr rfl)
  refine hsafe.mono ?_ ?_
  · intro w' hkept
    exact Recoverable.of_source hlisted
      (hsource.of_kept hkept hseparate.not_among_backUp)
  · intro ok w' hkept hsaved
    refine ⟨hsource.of_kept hkept hseparate.not_among_backUp,
      fun name => hkept.blocks name id, fun hok => ?_⟩
    exact contents_cache.mpr (hsaved hok data hdata hsize)

section Plain

variable (hseparate : args.Separate) (hplain : isMtd args.target = false)

include hseparate hplain

omit hlisted in
theorem Backed.of_kept (hbacked : Backed board args sel data madeCopy w)
    (hkept : Kept (· = args.outname) (fun _ => False) w w') :
    Backed board args sel data madeCopy w' := by
  unfold Backed at *
  split
  · rename_i hsource
    rw [if_pos hsource] at hbacked
    exact Contents.of_kept hbacked hkept (hseparate.not_among_outname hplain)
  · rename_i hcache
    rw [if_neg hcache] at hbacked
    exact Contents.of_kept hbacked hkept (not_among_cache outname_ne_cache.symm)

theorem safe_prepare_recoverable (retry : Nat)
    (hfile : sel.fromSource = true → sel.sourceFile.data = .live data ∧
      sel.sourceFile.size = data.length)
    (hbacked : Backed board args sel data false w) :
    Prog.Safe (sem board) (Recoverable board sha1 args)
      (fun r w' => ∀ left copied, r = some (left, copied) →
        Backed board args sel data copied w' ∧ (left ≠ 0 → copied = false))
      (prepare args sel retry false) w := by
  have hnow := Backed.recoverable hlisted hbacked
  unfold prepare
  simp only [hplain, Bool.false_eq_true, if_false]
  refine (safe_enoughSpace retry hnow).bind ?_
  rintro enough w₀ - rfl
  cases enough with
  | true =>
      refine ⟨hnow, ?_⟩
      rintro left copied ⟨⟩
      exact ⟨hbacked, fun _ => rfl⟩
  | false =>
      simp only [Bool.false_eq_true, if_false]
      by_cases hsource : sel.fromSource = true
      · simp only [hsource, if_true]
        split
        · exact ⟨hnow, by simp⟩
        · rename_i hmtd
          obtain ⟨hdata, hsize⟩ := hfile hsource
          have hcontents : Contents board w₀ args.sourceFilename data := by
            unfold Backed at hbacked
            rwa [if_pos ⟨hsource, rfl⟩] at hbacked
          have hne : args.sourceFilename ≠ CACHE_TEMP_SOURCE :=
            (hseparate.source.resolve_left hmtd).1
          refine (safe_backUp_recoverable hlisted hseparate hcontents hdata
            hsize).bind ?_
          rintro saved w₁ hnow₁ ⟨-, -, hcopy⟩
          cases saved with
          | false => exact ⟨hnow₁, by simp⟩
          | true =>
              simp only [if_true]
              have hcache := contents_cache.mp (hcopy rfl)
              refine ⟨hnow₁, ?_⟩
              intro r w₂ hunlink
              have hcopied : Contents board w₂ CACHE_TEMP_SOURCE data := by
                rw [contents_cache]
                rcases hunlink with ⟨-, rfl⟩ | ⟨-, rfl⟩
                · exact hcache
                · rw [World.setFile_files_ne _ _ hne.symm]
                  exact hcache
              refine (safe_freeSpaceForFile _
                (Recoverable.of_cache hlisted hcopied)).bind ?_
              rintro freeSpace _ hnow₂ rfl
              refine ⟨hnow₂, ?_⟩
              rintro left copied ⟨⟩
              refine ⟨?_, by simp⟩
              rw [Backed, if_neg (by simp)]
              exact hcopied
      · simp only [hsource, Bool.false_eq_true, if_false]
        refine ⟨hnow, ?_⟩
        rintro left copied ⟨⟩
        exact ⟨hbacked, by simp⟩

/-- What a pass leaves behind for the next one, or for the commit. -/
def Outcome.Backed (board : Board) (args : Args) (sel : Selection)
    (data : Bytes) (w : World) : Outcome → Prop
  | .exit _ => True
  | .again madeCopy => madeCopy = false ∧
      ApplyPatch.Backed board args sel data false w
  | .patched _ _ madeCopy => ApplyPatch.Backed board args sel data madeCopy w

theorem safe_attempt_recoverable (retry : Nat)
    (hfile : sel.fromSource = true → sel.sourceFile.data = .live data ∧
      sel.sourceFile.size = data.length)
    (hbacked : Backed board args sel data false w) :
    Prog.Safe (sem board) (Recoverable board sha1 args)
      (fun outcome w' => outcome.Backed board args sel data w')
      (attempt patchers args sel retry false) w := by
  refine (safe_prepare_recoverable hlisted hseparate hplain retry hfile
    hbacked).bind ?_
  rintro prepared w₁ hnow hprepared
  cases prepared with
  | none => exact ⟨hnow, trivial⟩
  | some prepared =>
      obtain ⟨left, copied⟩ := prepared
      obtain ⟨hbacked₁, hleft⟩ := hprepared left copied rfl
      simp only
      split
      · exact ⟨hnow, trivial⟩
      · cases sel.toUse.data with
        | null => exact ⟨hnow, fun r _ happ => happ.elim⟩
        | freed => exact ⟨hnow, fun r _ happ => happ.elim⟩
        | live oldData =>
            have hrun : Prog.Safe (sem board)
                (Kept (· = args.outname) (fun _ => False) w₁) (fun _ _ => True)
                (runPatch patchers args oldData sel.patch.data) w₁ := by
              refine (safe_runPatch_kept ?_ oldData sel.patch.data).mono
                (fun _ h => h) (fun _ _ _ _ => trivial)
              exact fun _ => rfl
            have hkeeps : ∀ {w₂ : World},
                Kept (· = args.outname) (fun _ => False) w₁ w₂ →
                Backed board args sel data copied w₂ :=
              fun hkept => hbacked₁.of_kept hseparate hplain hkept
            refine (hrun.mono
              (fun _ hkept => (hkeeps hkept).recoverable hlisted)
              (fun _ _ hkept _ => hkept)).bind ?_
            rintro ran w₂ hnow₂ hkept
            have hbacked₂ := hkeeps hkept
            cases ran with
            | none => exact ⟨hnow₂, trivial⟩
            | some ran =>
                obtain ⟨result, fed, output⟩ := ran
                simp only
                split
                · exact ⟨hnow₂, hbacked₂⟩
                · split
                  · exact ⟨hnow₂, trivial⟩
                  · rename_i hretry
                    have hnone := hleft hretry
                    subst hnone
                    simp only [hplain, Bool.not_false, if_true]
                    have hunlink : Prog.Safe (sem board)
                        (Kept (· = args.outname) (fun _ => False) w₁) _
                        (unlink args.outname) w₂ :=
                      safe_perform (c := .unlink args.outname) hkept
                        (fun _ h => h) (fun _ h => h)
                    refine (hunlink.mono
                      (fun _ hkept => (hkeeps hkept).recoverable hlisted)
                      (fun _ _ hkept _ => hkept)).bind ?_
                    rintro _ w₃ hnow₃ hkept₃
                    exact ⟨hnow₃, rfl, hkeeps hkept₃⟩

theorem safe_patchLoop_recoverable (hfeeds : sel.Feeds patchers)
    (retry : Nat)
    (hfile : sel.fromSource = true → sel.sourceFile.data = .live data ∧
      sel.sourceFile.size = data.length)
    (hbacked : Backed board args sel data false w) :
    Prog.Safe (sem board) (Recoverable board sha1 args)
      (fun outcome w' => outcome.Backed board args sel data w' ∧
        outcome.Sound args w')
      (patchLoop patchers args sel retry false) w := by
  have hloop : Prog.Safe (sem board) (Recoverable board sha1 args)
      (fun outcome w' => outcome.Backed board args sel data w')
      (patchLoop patchers args sel retry false) w := by
    induction retry generalizing w with
    | zero =>
        exact safe_attempt_recoverable hlisted hseparate hplain 0 hfile hbacked
    | succ retry ih =>
        refine (safe_attempt_recoverable hlisted hseparate hplain (retry + 1)
          hfile hbacked).bind ?_
        rintro outcome w' hnow houtcome
        cases outcome with
        | exit code => exact ⟨hnow, houtcome⟩
        | again madeCopy =>
            obtain ⟨rfl, hbacked'⟩ := houtcome
            exact ih hbacked'
        | patched output fed madeCopy => exact ⟨hnow, houtcome⟩
  exact (hloop.and (safe_patchLoop hplain hfeeds retry false)).mono
    (fun _ h => h.1) (fun _ _ _ h => h)

/-- The output replaces the target before the saved copy is deleted. -/
theorem safe_commit_recoverable {targetSha1 : Bytes}
    (hsha1 : parseSha1 args.targetSha1Str = some targetSha1)
    {outcome : Outcome} (hbacked : outcome.Backed board args sel data w)
    (hsound : outcome.Sound args w) (hnow : Recoverable board sha1 args w) :
    Prog.Safe (sem board) (Recoverable board sha1 args) (fun _ _ => True)
      (commit sha1 args targetSha1 sel outcome) w := by
  cases outcome with
  | exit code => exact ⟨hnow, trivial⟩
  | again madeCopy => exact ⟨hnow, trivial⟩
  | patched output fed madeCopy =>
      simp only [commit]
      split
      · exact ⟨hnow, trivial⟩
      · rename_i hhash
        rw [ne_eq, not_not] at hhash
        cases output with
        | memory buffer => exact hsound.elim
        | file =>
            obtain ⟨file, hfile, rfl⟩ := hsound
            have hdone : ∀ {w' : World}, (∃ file', w'.files args.target =
                some file' ∧ file'.data = file.data) →
                Recoverable board sha1 args w' := by
              rintro w' ⟨file', hfile', hdata⟩
              refine Or.inl ⟨file.data, ?_, by rw [hsha1, hhash]⟩
              rw [Contents, if_neg (by simp [hplain])]
              exact ⟨file', hfile', hdata⟩
            refine ((safe_replaceTarget _ hfile).mono ?_
              (fun _ _ _ h => h)).bind ?_
            · rintro w' (hkept | htarget)
              · exact (Backed.of_kept hseparate hplain hbacked
                  hkept).recoverable hlisted
              · exact hdone htarget
            · rintro replaced w' hnow' hreplaced
              cases replaced with
              | false => exact ⟨hnow', trivial⟩
              | true =>
                  obtain ⟨file', hfile', hdata⟩ := hreplaced rfl
                  cases madeCopy with
                  | false => exact ⟨hnow', trivial⟩
                  | true =>
                      refine ⟨hnow', ?_⟩
                      rintro r w'' hunlink
                      refine ⟨hdone ⟨file', ?_, hdata⟩, trivial⟩
                      rcases hunlink with ⟨-, rfl⟩ | ⟨-, rfl⟩
                      · exact hfile'
                      · rw [World.setFile_files_ne _ _ hseparate.target]
                        exact hfile'

end Plain

section Partition

variable (hseparate : args.Separate) (hmtd : isMtd args.target = true)
  {target : Bytes}

include hseparate hmtd

/-- What a pass leaves behind when the target is a partition: the target in
memory, and the source in two places. -/
def Outcome.InMemory (board : Board) (args : Args) (data target : Bytes)
    (w w' : World) : Outcome → Prop
  | .exit _ => True
  | .again _ => False
  | .patched output fed madeCopy =>
      output = .memory target ∧ fed = target ∧ madeCopy = true ∧
        Contents board w' args.sourceFilename data ∧
        Contents board w' CACHE_TEMP_SOURCE data ∧
        ∀ name, (w'.device name).block = (w.device name).block

theorem safe_patchLoop_partition
    (hcorrect : ∀ prog, patchProgram patchers data sel.patch.data = some prog →
      Prog.Safe sinkSem (fun _ => True)
        (fun r accepted => r.1 = 0 → r.2 = accepted ∧ accepted = target)
        prog [])
    (hsource : Contents board w args.sourceFilename data)
    (hdata : sel.sourceFile.data = .live data)
    (hsize : sel.sourceFile.size = data.length)
    (huse : sel.toUse = sel.sourceFile) :
    Prog.Safe (sem board) (Recoverable board sha1 args)
      (fun outcome w' => outcome.InMemory board args data target w w')
      (patchLoop patchers args sel 1 false) w := by
  have hattempt : Prog.Safe (sem board) (Recoverable board sha1 args)
      (fun outcome w' => outcome.InMemory board args data target w w')
      (attempt patchers args sel 1 false) w := by
    unfold attempt prepare
    simp only [hmtd, if_true, bind_assoc]
    refine (safe_backUp_recoverable hlisted hseparate hsource hdata
      hsize).bind ?_
    rintro saved w₁ hnow ⟨hsource₁, hblocks, hcopy⟩
    cases saved with
    | false => exact ⟨hnow, trivial⟩
    | true =>
        have hcache := hcopy rfl
        simp only [if_true, pure_bind]
        split
        · exact ⟨hnow, trivial⟩
        · rw [huse, hdata]
          simp only
          unfold runPatch
          simp only [hmtd, if_true, bind_assoc]
          refine (safe_readOnly (c := .malloc _) trivial hnow).bind ?_
          rintro allocated _ - ⟨rfl, -⟩
          cases allocated with
          | false => exact ⟨hnow, trivial⟩
          | true =>
              simp only [if_true]
              cases hprog : patchProgram patchers data sel.patch.data with
              | none => exact ⟨hnow, trivial⟩
              | some prog =>
                  have heval := memorySink_eval args.targetSize
                    (hcorrect prog hprog)
                  simp only [pure_bind]
                  split
                  · rename_i hzero
                    obtain ⟨hfed, hbuffer⟩ := heval hzero
                    refine ⟨hnow, ?_, ?_, rfl, hsource₁, hcache, hblocks⟩
                    · rw [hbuffer]
                    · rw [hfed, hbuffer]
                  · exact ⟨hnow, trivial⟩
  refine hattempt.bind ?_
  rintro outcome w' hnow houtcome
  cases outcome with
  | exit code => exact ⟨hnow, trivial⟩
  | again madeCopy => exact houtcome.elim
  | patched output fed madeCopy => exact ⟨hnow, houtcome⟩

/-- The copy is deleted when the target can be read back, or the source is
somewhere else. -/
theorem safe_commit_partition {targetSha1 : Bytes}
    (hsha1 : parseSha1 args.targetSha1Str = some targetSha1)
    (hreads : ReadsBack board args w target) {outcome : Outcome}
    (houtcome : outcome.InMemory board args data target w w')
    (hnow : Recoverable board sha1 args w') :
    Prog.Safe (sem board) (Recoverable board sha1 args) (fun _ _ => True)
      (commit sha1 args targetSha1 sel outcome) w' := by
  cases outcome with
  | exit code => exact ⟨hnow, trivial⟩
  | again madeCopy => exact houtcome.elim
  | patched output fed madeCopy =>
      obtain ⟨rfl, rfl, rfl, hsource, hcache, hblocks⟩ := houtcome
      simp only [commit]
      split
      · exact ⟨hnow, trivial⟩
      · rename_i hhash
        rw [ne_eq, not_not] at hhash
        have hwrite : Prog.Safe (sem board)
            (Kept (fun _ => False) (· = partitionName args.target) w') _
            (replaceTarget args sel.toUse.st (.memory fed)) w' :=
          safe_writeToMTDPartition fed hmtd rfl
        refine (hwrite.mono ?_ (fun _ _ h h' => And.intro h h')).bind ?_
        · intro w₁ hkept
          exact Recoverable.of_cache hlisted
            (hcache.of_kept hkept (not_among_cache id))
        · rintro replaced w₁ hnow₁ ⟨hkept, hran⟩
          cases replaced with
          | false => exact ⟨hnow₁, trivial⟩
          | true =>
              refine ⟨hnow₁, ?_⟩
              intro r w₂ hunlink
              refine ⟨?_, trivial⟩
              have hkept₂ : Kept (· = CACHE_TEMP_SOURCE) (fun _ => False)
                  w₁ w₂ := kept_of_sem hunlink
              by_cases hsame : isMtd args.sourceFilename = true ∧
                  partitionName args.sourceFilename =
                    partitionName args.target
              · have hstored : Contents board w₁ args.target fed := by
                  rw [Contents, if_pos hmtd]
                  refine stored_of_writePartition (hran rfl).symm ?_
                  rw [hblocks]
                  exact hreads hmtd hsame.1 hsame.2
                refine Or.inl ⟨fed, hstored.of_kept hkept₂ ?_,
                  by rw [hsha1, hhash]⟩
                rw [Among, if_pos hmtd]
                exact id
              · have hsource₁ : Contents board w₁ args.sourceFilename data := by
                  refine hsource.of_kept hkept ?_
                  unfold Among
                  split
                  · rename_i hpartition
                    exact fun heq => hsame ⟨hpartition, heq⟩
                  · exact id
                refine Recoverable.of_source hlisted
                  (hsource₁.of_kept hkept₂ ?_)
                unfold Among
                split
                · exact id
                · rename_i hplain
                  exact (hseparate.source.resolve_left hplain).1

end Partition

end Loop

/-- A run that does not resume a write to a partition uses the source. -/
theorem safe_selectSource_fresh {sourceFile : FileContents} {start : World}
    (hstart : Same start w)
    (hloaded : sourceFile.data ≠ .null →
      Loaded board sha1 w args.sourceFilename sourceFile) :
    Prog.Safe (freshSem board sha1 args start) (Same w)
      (fun r w' => ∀ sel, r = some sel → Selected board sha1 args w' sel ∧
        (isMtd args.target = true → sel.fromSource = true))
      (selectSource sha1 args sourceFile) w := by
  have hselect : Prog.Safe (freshSem board sha1 args start) (Same w) _
      (selectSource sha1 args sourceFile) w :=
    (safe_selectSource hloaded).restrict (fun _ _ _ _ happ => happ.1)
  by_cases hguard : isMtd args.target = true ∧
      Resumable board sha1 args start
  · obtain ⟨hmtd, hresumable⟩ := hguard
    unfold selectSource at hselect ⊢
    simp only at hselect ⊢
    split
    · rename_i patch hpatch
      rw [hpatch] at hselect
      refine ⟨Kept.refl, ?_⟩
      rintro sel ⟨⟩
      exact ⟨hselect.2 _ rfl, fun _ => rfl⟩
    · -- The copy is looked at with `stat`, which no step of the run may do.
      refine ⟨Kept.refl, ?_⟩
      rintro ⟨size, st⟩ _ ⟨hsame, -⟩
      have hsame : _ = w := hsame
      subst hsame
      refine ⟨Kept.refl, ?_⟩
      intro answer w' happ
      exact (happ.2 hmtd hresumable rfl).elim
  · refine hselect.mono (fun _ h => h) ?_
    intro r w' hsame hselected sel hsel
    refine ⟨hselected sel hsel, fun hmtd => ?_⟩
    by_contra hcopy
    obtain ⟨data, -, -, hpatch, hfrom⟩ := hselected sel hsel
    rw [if_neg hcopy] at hfrom
    refine hguard ⟨hmtd, data, hfrom.of_same (hstart.trans hsame).symm, ?_⟩
    rw [Args.Listed, hpatch]
    rfl

/-- The invariant of a run, for both kinds of target. -/
theorem safe_applypatch_recoverable {target : Bytes}
    (hcorrect : CorrectPatches sha1 patchers args target)
    (hseparate : args.Separate) (hreads : ReadsBack board args w target)
    (hinit : Recoverable board sha1 args w) :
    Prog.Safe (freshSem board sha1 args w) (Recoverable board sha1 args)
      (fun _ _ => True) (applypatch sha1 patchers args) w := by
  have hsem : ∀ c w₁ r w₂, freshSem board sha1 args w c w₁ r w₂ →
      sem board c w₁ r w₂ := fun _ _ _ _ happ => happ.1
  have hstay : ∀ {w'}, Same w w' → Recoverable board sha1 args w' :=
    fun hsame => hinit.of_same hsame
  unfold applypatch
  cases hsha1 : parseSha1 args.targetSha1Str with
  | none => exact ⟨hinit, trivial⟩
  | some targetSha1 =>
      refine ((safe_readOnly (c := .uninitialised) trivial
        hinit).restrict hsem).bind ?_
      rintro ⟨size, st⟩ w₀ - ⟨rfl, -⟩
      refine (((safe_loadFileContents _ args.target).restrict hsem).mono
        (fun _ hsame => hstay hsame) (fun _ _ h h' => And.intro h h')).bind ?_
      rintro ⟨loaded, sourceFile⟩ w₁ hnow₁ ⟨hsame₁, hsome, hnone⟩
      simp only
      split
      · exact ⟨hnow₁, trivial⟩
      · have htarget : sourceFile.data ≠ .null →
            Loaded board sha1 w₁ args.target sourceFile :=
          loaded_of_live hsome hnone
        refine (((safe_loadSource htarget).restrict hsem).mono
          (fun _ hsame => hstay (hsame₁.trans hsame))
          (fun _ _ h h' => And.intro h h')).bind ?_
        rintro sourceFile w₂ - ⟨hsame₂, hloaded⟩
        have hsame₂ := hsame₁.trans hsame₂
        refine ((safe_selectSource_fresh hsame₂ hloaded).mono
          (fun _ hsame => hstay (hsame₂.trans hsame))
          (fun _ _ h h' => And.intro h h')).bind ?_
        rintro selected w₃ hnow₃ ⟨hsame₃, hselected⟩
        cases selected with
        | none => exact ⟨hnow₃, trivial⟩
        | some sel =>
            obtain ⟨⟨data, hdata, hsize, hpatch, hfrom⟩, huse⟩ :=
              hselected sel rfl
            have hlisted : args.Listed sha1 data := by
              rw [Args.Listed, hpatch]
              rfl
            have hsame₃ := hsame₂.trans hsame₃
            by_cases hmtd : isMtd args.target = true
            · rw [if_pos (huse hmtd)] at hfrom
              obtain ⟨heq, hsource⟩ := hfrom
              have hreads₃ : ReadsBack board args w₃ target := by
                intro h₁ h₂ h₃
                rw [hsame₃.blocks _ id]
                exact hreads h₁ h₂ h₃
              refine ((safe_patchLoop_partition hlisted hseparate hmtd
                (fun prog hprog => hcorrect data sel.patch prog hpatch hprog)
                hsource (by rw [heq, hdata]) (by rw [heq, hsize])
                heq.symm).restrict hsem).bind ?_
              intro outcome w₄ hnow₄ houtcome
              exact (safe_commit_partition hlisted hseparate hmtd hsha1 hreads₃
                houtcome hnow₄).restrict hsem
            · have hplain : isMtd args.target = false := by simpa using hmtd
              have hfile : sel.fromSource = true →
                  sel.sourceFile.data = .live data ∧
                    sel.sourceFile.size = data.length := by
                intro hsource
                rw [if_pos hsource] at hfrom
                rw [hfrom.1]
                exact ⟨hdata, hsize⟩
              have hbacked : Backed board args sel data false w₃ := by
                unfold Backed
                by_cases hsource : sel.fromSource = true
                · rw [if_pos hsource] at hfrom
                  rw [if_pos ⟨hsource, rfl⟩]
                  exact hfrom.2
                · rw [if_neg hsource] at hfrom
                  rw [if_neg (by simp [hsource])]
                  exact hfrom
              have hfeeds : sel.Feeds patchers := by
                intro oldData prog hlive hprog
                rw [hdata, Buffer.live.injEq] at hlive
                subst hlive
                exact (hcorrect data sel.patch prog hpatch hprog).mono
                  (fun _ h => h) (fun _ _ _ h hzero => (h hzero).1)
              refine ((safe_patchLoop_recoverable hlisted hseparate hplain
                hfeeds 1 hfile hbacked).restrict hsem).bind ?_
              rintro outcome w₄ hnow₄ ⟨hbacked₄, hsound⟩
              exact (safe_commit_recoverable hlisted hseparate hplain hsha1
                hbacked₄ hsound hnow₄).restrict hsem

/-- **When a run can be cut off anywhere.** -/
theorem applypatch_recoverable {target : Bytes}
    (hcorrect : CorrectPatches sha1 patchers args target)
    (hseparate : args.Separate) (hreads : ReadsBack board args w target)
    (hinit : Recoverable board sha1 args w) {rest : SysProg Int}
    (hrun : Prog.Reaches (freshSem board sha1 args w)
      (applypatch sha1 patchers args, w) (rest, w')) :
    Recoverable board sha1 args w' :=
  (safe_applypatch_recoverable hcorrect hseparate hreads hinit).inv_of_reaches
    hrun

end Recovery

namespace RecoveryWitness

open PatchWitness

theorem separate : args.Separate where
  target := by decide
  source := by
    refine Or.inr ⟨by decide, ?_, fun _ => by decide⟩
    rintro ⟨-, dir, hdir, name, -, heq⟩
    have hsecond := congrArg (fun path => path[1]?) heq
    simp only [expendableDirs, List.mem_cons, List.not_mem_nil, or_false]
      at hdir
    rcases hdir with rfl | rfl
    · simp [args, ascii] at hsecond
    · simp [args, ascii] at hsecond

theorem correctPatches : CorrectPatches tableSha1 patchers args [] := by
  intro data patch prog _ hprog
  rw [eq_sinkNothing hprog]
  refine ⟨trivial, ?_⟩
  rintro r accepted ⟨count, -, -, rfl⟩
  exact ⟨trivial, by simp⟩

theorem sourceOnly_recoverable :
    Recoverable board tableSha1 args sourceOnly := by
  have hlisted : args.Listed tableSha1 [97] := rfl
  refine Recoverable.of_source hlisted ?_
  rw [Contents, if_neg (by decide)]
  exact ⟨_, rfl, rfl⟩

/-- The run to `/b/new` can be cut off anywhere; here it has ended. -/
theorem emptyTarget_recoverable :
    Recoverable board tableSha1 args sourceOnly ∧
      Recoverable board tableSha1 args patched := by
  have hplain : ¬ isMtd args.target = true := by decide
  have hallowed : ∀ c w r w', reliable board (2 ^ 20) c w = some (r, w') →
      freshSem board tableSha1 args sourceOnly c w r w' :=
    fun c w r w' hanswer => ⟨reliable_allowed c w r w' hanswer,
      fun hmtd => (hplain hmtd).elim⟩
  have hrun : Prog.Reaches (freshSem board tableSha1 args sourceOnly)
      (applypatch tableSha1 patchers args, sourceOnly) (.ret 0, patched) :=
    Prog.reaches_advance hallowed _ _
  exact ⟨sourceOnly_recoverable, applypatch_recoverable correctPatches separate
    (fun hmtd => (hplain hmtd).elim) sourceOnly_recoverable hrun⟩

/-- A patch from `a` to `b`. -/
def letterPatch : Bytes :=
  ascii "BSDIFF40" ++ [
    41, 0, 0, 0, 0, 0, 0, 0, 37, 0, 0, 0, 0, 0, 0, 0, 1, 0, 0, 0, 0, 0,
    0, 0, 66, 90, 104, 57, 49, 65, 89, 38, 83, 89, 82, 252, 30, 119, 0,
    0, 2, 96, 0, 96, 0, 8, 0, 32, 0, 48, 204, 12, 245, 5, 206, 46, 228,
    138, 112, 161, 32, 165, 248, 60, 238, 66, 90, 104, 57, 49, 65, 89,
    38, 83, 89, 181, 54, 93, 252, 0, 0, 0, 64, 0, 32, 0, 32, 0, 33, 24,
    70, 130, 238, 72, 167, 10, 18, 22, 166, 203, 191, 128, 66, 90, 104,
    57, 23, 114, 69, 56, 80, 144, 0, 0, 0, 0]

/-- What `ApplyBSDiffPatch` does with it. -/
def sinkLetter : PatchProg := do
  let written ← Prog.perform ([98] : Bytes)
  if written < 1 then pure (1, []) else pure (0, [98])

def letterPatchers : PatchFunctions :=
  ⟨fun _ _ => sinkLetter, fun _ _ => sinkLetter⟩

/-- The partition `boot`, to be patched in place. -/
def bootArgs : Args where
  sourceFilename :=
    ascii "MTD:boot:1:86f7e437faa5a7fce15d1ddcb9eaeaea377667b8"
  targetFilename := ascii "-"
  targetSha1Str := otherHex
  targetSize := 1
  patchSha1Str := [letterHex]
  patchData := [some ⟨.blob, letterPatch⟩]

/-- An earlier run was cut off: the partition is erased, and the source is in
the saved copy. -/
def interrupted : World where
  files path :=
    if path = CACHE_TEMP_SOURCE then some ⟨[97], ⟨0o644, 0, 0⟩⟩ else none
  device _ := ⟨fun _ => ⟨[255, 255], 0⟩, 0, 0⟩

/-- All calls succeed, but for a write from the null pointer. -/
def nullWrite : (c : Syscall) → World → Option (Answer c × World)
  | .write _ _, w => some (-1, w)
  | c, w => reliable board 100 c w

/-- The state that the next run leaves behind. -/
def truncated : World :=
  ((applypatch tableSha1 letterPatchers bootArgs).advance nullWrite
    interrupted).2

theorem nullWrite_allowed (c : Syscall) (w : World) (r : Answer c)
    (w' : World) (hanswer : nullWrite c w = some (r, w')) :
    sem board c w r w' := by
  cases c with
  | write path data =>
      cases hanswer
      refine ⟨0, Nat.zero_le _, Or.inr ⟨rfl, rfl⟩, ?_⟩
      simp [World.modify, World.setFile]
  | _ => exact @reliable_allowed board 100 _ w r w' hanswer

theorem letterPatches_correct :
    CorrectPatches tableSha1 letterPatchers bootArgs [98] := by
  intro data patch prog _ hprog
  have hletter : prog = sinkLetter := by
    obtain rfl | rfl := patchProgram_cases hprog
    · rfl
    · rfl
  rw [hletter]
  have hsink : Prog.Safe sinkSem (fun _ => True)
      (fun written accepted => 1 ≤ (written : Int) → accepted = [98])
      (Prog.perform ([98] : Bytes)) [] := by
    refine ⟨trivial, ?_⟩
    rintro (written : Int) accepted ⟨count, hcount, hanswer, rfl⟩
    refine ⟨trivial, fun hpositive => ?_⟩
    have hwritten : written = (count : Int) ∨
        count = 0 ∧ written = (-1 : Int) := hanswer
    have hlength : count ≤ 1 := hcount
    have hone : count = 1 := by omega
    rw [hone]
    rfl
  refine hsink.bind ?_
  rintro written accepted - haccepted
  split
  · exact ⟨trivial, by simp⟩
  · rename_i hpositive
    have hall := haccepted (not_lt.mp hpositive)
    exact ⟨trivial, fun _ => ⟨hall.symm, hall⟩⟩

/-- An erased partition begins with no data but erased bytes. -/
theorem erased_of_stored {data : Bytes}
    (hstored : Stored (Mtd.Flash.faultFree part)
      (fun _ => ⟨[255, 255], 0⟩) data) : data = [] ∨ data.head? = some 255 := by
  obtain ⟨datas, hahead, hpiece⟩ := hstored
  cases datas with
  | nil => exact Or.inl (List.prefix_nil.mp hpiece)
  | cons first datas =>
      have hread := (Mtd.Ahead.cons _ hahead).1
      have hfirst : ((Mtd.Flash.faultFree part).run (Mtd.readBlock part)
          ⟨fun _ => ⟨[255, 255], 0⟩, 0, 0⟩).1 = some [255, 255] := rfl
      rw [hfirst, Option.some.injEq] at hread
      rw [← hread] at hpiece
      cases data with
      | nil => exact Or.inl rfl
      | cons b data =>
          obtain ⟨rest, hrest⟩ := hpiece
          exact Or.inr (by simpa using congrArg List.head? hrest)

theorem tableSha1_erased {data : Bytes}
    (herased : data = [] ∨ data.head? = some 255) :
    tableSha1 data = tableSha1 [] ∨ tableSha1 data = List.replicate 20 0 := by
  rcases herased with rfl | hhead
  · exact Or.inl rfl
  · refine Or.inr ?_
    unfold tableSha1
    rw [if_neg, if_neg, if_neg]
    · rintro rfl
      cases hhead
    · rintro rfl
      cases hhead
    · rintro rfl
      cases hhead

/-- The run gives up, and has destroyed the only copy of the source. -/
theorem resumed_copy_lost :
    CorrectPatches tableSha1 letterPatchers bootArgs [98] ∧
      Recoverable board tableSha1 bootArgs interrupted ∧
      Prog.Reaches (sem board)
        (applypatch tableSha1 letterPatchers bootArgs, interrupted)
        (.ret 1, truncated) ∧
      ¬ Recoverable board tableSha1 bootArgs truncated := by
  have hlisted : bootArgs.Listed tableSha1 [97] := rfl
  have hrun : Prog.Reaches (sem board)
      (applypatch tableSha1 letterPatchers bootArgs, interrupted)
      ((applypatch tableSha1 letterPatchers bootArgs).advance nullWrite
        interrupted) :=
    Prog.reaches_advance nullWrite_allowed _ _
  have hflash : ∀ {data}, Contents board truncated bootArgs.sourceFilename
      data → data = [] ∨ data.head? = some 255 := by
    intro data hdata
    exact erased_of_stored hdata
  refine ⟨letterPatches_correct, ?_, hrun, ?_⟩
  · exact Recoverable.of_cache hlisted
      (contents_cache.mpr ⟨_, rfl, rfl⟩)
  · rintro (⟨data, hdata, hhash⟩ | ⟨data, hdata | hdata, hlist⟩)
    · rcases tableSha1_erased (hflash hdata) with heq | heq
      · rw [heq] at hhash
        exact absurd hhash (by decide)
      · rw [heq] at hhash
        exact absurd hhash (by decide)
    · rw [Args.Listed] at hlist
      rcases tableSha1_erased (hflash hdata) with heq | heq
      · rw [heq] at hlist
        exact absurd hlist (by decide)
      · rw [heq] at hlist
        exact absurd hlist (by decide)
    · obtain ⟨file, hfile, rfl⟩ := contents_cache.mp hdata
      have hempty : truncated.files CACHE_TEMP_SOURCE =
          some ⟨[], ⟨0o644, 0, 0⟩⟩ := rfl
      rw [hempty, Option.some.injEq] at hfile
      rw [← hfile] at hlist
      exact absurd hlist (by unfold Args.Listed; decide)

end RecoveryWitness

end ApplyPatch

end MetaOS
