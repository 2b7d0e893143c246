/-
Which source `applypatch` uses, and when it leaves the source alone.

The comment on `applypatch` promises that the source is not deleted when it is
not the target.  The path that makes room on the target's file system breaks
the promise: it moves the source to `/cache`, and the copy is deleted at the
end.  `Spares` and `Roomy` describe the runs that keep it.
-/
import MetaOS.ApplyPatchTarget

namespace MetaOS

namespace ApplyPatch

open FileSystem CString

section Selection

variable {board : Board} {sha1 : Bytes → Bytes} {args : Args} {w w' : World}

theorem Loaded.of_same {filename : Path} {file : FileContents}
    (hloaded : Loaded board sha1 w filename file) (hsame : Same w w') :
    Loaded board sha1 w' filename file := by
  obtain ⟨data, hdata, hsize, hhash, hcontents⟩ := hloaded
  exact ⟨data, hdata, hsize, hhash, hcontents.of_same hsame⟩

/-- A buffer that holds something after a load was filled by it. -/
theorem loaded_of_live {filename : Path} {loaded : Bool} {file : FileContents}
    (hsome : loaded = true → Loaded board sha1 w filename file)
    (hnone : loaded = false → file.data = .null) (hlive : file.data ≠ .null) :
    Loaded board sha1 w filename file := by
  cases loaded with
  | false => exact (hlive (hnone rfl)).elim
  | true => exact hsome rfl

/-- The data to use was loaded from the source or from the saved copy, and has
a patch. -/
def Selected (board : Board) (sha1 : Bytes → Bytes) (args : Args) (w : World)
    (sel : Selection) : Prop :=
  ∃ data, sel.toUse.data = .live data ∧ sel.toUse.size = data.length ∧
    args.patchFor (sha1 data) = some sel.patch ∧
    if sel.fromSource then
      sel.sourceFile = sel.toUse ∧
        Contents board w args.sourceFilename data
    else Contents board w CACHE_TEMP_SOURCE data

theorem safe_loadSource {sourceFile : FileContents}
    (hloaded : sourceFile.data ≠ .null →
      Loaded board sha1 w args.target sourceFile) :
    Prog.Safe (sem board) (Same w)
      (fun file w' => file.data ≠ .null →
        Loaded board sha1 w' args.sourceFilename file)
      (loadSource sha1 args sourceFile) w := by
  unfold loadSource
  split
  · refine safe_bind (safe_loadFileContents sourceFile _) ?_
    rintro ⟨loaded, file⟩ w' - ⟨hsome, hnone⟩
    exact ⟨Kept.refl, loaded_of_live hsome hnone⟩
  · rename_i hkeep
    rw [not_or, not_not] at hkeep
    rw [← hkeep.2]
    exact ⟨Kept.refl, hloaded⟩

theorem safe_selectSource {sourceFile : FileContents}
    (hloaded : sourceFile.data ≠ .null →
      Loaded board sha1 w args.sourceFilename sourceFile) :
    Prog.Safe (sem board) (Same w)
      (fun r w' => ∀ sel, r = some sel → Selected board sha1 args w' sel)
      (selectSource sha1 args sourceFile) w := by
  unfold selectSource
  simp only
  split
  · rename_i patch hpatch
    split at hpatch
    · cases hpatch
    · rename_i hlive
      obtain ⟨data, hdata, hsize, hhash, hcontents⟩ := hloaded hlive
      refine ⟨Kept.refl, ?_⟩
      rintro sel ⟨⟩
      refine ⟨data, hdata, hsize, ?_, rfl, hcontents⟩
      rw [← hhash]
      exact hpatch
  · refine safe_bind (safe_readOnly (c := .uninitialised) trivial Kept.refl) ?_
    rintro ⟨size, st⟩ _ - ⟨rfl, -⟩
    refine safe_bind (safe_loadFileContents _ _) ?_
    rintro ⟨loaded, copyFile⟩ w' - ⟨hsome, -⟩
    cases loaded with
    | false => exact ⟨Kept.refl, by simp⟩
    | true =>
        obtain ⟨data, hdata, hsize, hhash, hcontents⟩ := hsome rfl
        simp only [if_true]
        cases hpatch : args.patchFor copyFile.sha1 with
        | none => exact ⟨Kept.refl, by simp⟩
        | some patch =>
            refine ⟨Kept.refl, ?_⟩
            rintro sel ⟨⟩
            refine ⟨data, hdata, hsize, ?_, hcontents⟩
            rw [← hhash]
            exact hpatch

variable {changed : Path → Prop} {flashed : Bytes → Prop}

theorem safe_backUp (sourceFile : FileContents)
    (hexpendable : ∀ path, Expendable path → changed path)
    (hcache : changed CACHE_TEMP_SOURCE) :
    Prog.Safe (sem board) (Kept changed flashed w)
      (fun ok w' => ok = true → ∀ bytes, sourceFile.data = .live bytes →
        sourceFile.size = bytes.length →
        ∃ saved, w'.files CACHE_TEMP_SOURCE = some saved ∧
          saved.data = bytes)
      (backUp sourceFile) w := by
  refine safe_bind (safe_makeFreeSpaceOnCache hexpendable _) ?_
  rintro made w' - -
  cases made with
  | false => exact ⟨Kept.refl, by simp⟩
  | true => exact safe_saveFileContents sourceFile hcache

theorem safe_enoughSpace {inv : World → Prop} (retry : Nat) (hinv : inv w) :
    Prog.Safe (sem board) inv (fun _ w' => w' = w)
      (enoughSpace args retry) w := by
  unfold enoughSpace
  split
  · refine (safe_freeSpaceForFile _ hinv).bind ?_
    rintro freeSpace _ hinv' rfl
    exact ⟨hinv', rfl⟩
  · exact ⟨hinv, rfl⟩

end Selection

section Preservation

variable (board : Board) (sha1 : Bytes → Bytes) (patchers : PatchFunctions)
  (args : Args) (w : World)

/-- The files a run may change when it does not move the source. -/
def Args.Changes (path : Path) : Prop :=
  if isMtd args.target then Expendable path ∨ path = CACHE_TEMP_SOURCE
  else path = args.outname ∨ path = args.target

/-- The partition a run may write. -/
def Args.Writes (name : Bytes) : Prop :=
  isMtd args.target = true ∧ name = partitionName args.target

/-- The two names stand for different files. -/
def Args.Distinct : Prop :=
  ¬ Among (· = args.target) args.Writes args.sourceFilename

/-- The source is a partition, or none of the files that a run uses for its
own purposes. -/
def Args.Spared : Prop :=
  isMtd args.sourceFilename = true ∨
    if isMtd args.target then
      ¬ Expendable args.sourceFilename ∧
        args.sourceFilename ≠ CACHE_TEMP_SOURCE
    else args.sourceFilename ≠ args.outname

/-- No room is ever made by moving the source: the target or the source is a
partition, or the source has no patch. -/
def Immovable : Prop :=
  isMtd args.target = true ∨ isMtd args.sourceFilename = true ∨
    ∀ data, Contents board w args.sourceFilename data →
      args.patchFor (sha1 data) = none

/-- There is room for the target, and its writes are complete. -/
def Args.Roomy : (c : Syscall) → Answer c → Prop
  | .statfs path, r => path = args.targetFs → args.Fits (freeBytes r)
  | .write path data, r => path = args.outname → r = (data.length : Int)
  | _, _ => True

/-- A sink that takes everything. -/
def fullSem : Prog.Semantics Bytes (fun _ => Int) Unit :=
  fun data _ r _ => r = data.length

/-- The patch for the source succeeds on a sink that takes everything. -/
def PatchSucceeds : Prop :=
  ∀ data patch prog, Contents board w args.sourceFilename data →
    args.patchFor (sha1 data) = some patch →
    patchProgram patchers data patch.data = some prog →
    Prog.Safe fullSem (fun _ => True) (fun r _ => r.1 = 0) prog ()

/-- The answers the system may give in a run from `w` that does not have to
move the source. -/
def unhurriedSem : Prog.Semantics Syscall Answer World :=
  fun c w₁ r w₂ => sem board c w₁ r w₂ ∧
    (Immovable board sha1 args w ∨ args.Roomy c r)

def Output.OfKind : Output → Prop
  | .memory _ => isMtd args.target = true
  | .file => isMtd args.target = false

/-- The output is of the target's kind, and a file is patched without a copy
of the source. -/
def Outcome.Quiet : Outcome → Prop
  | .exit _ => True
  | .again madeCopy => isMtd args.target = false → madeCopy = false
  | .patched output _ madeCopy =>
      output.OfKind args ∧ (isMtd args.target = false → madeCopy = false)

variable {board sha1 patchers args w}

theorem Args.changes_outname (hplain : isMtd args.target = false) :
    args.Changes args.outname := by
  rw [Args.Changes, if_neg (by simp [hplain])]
  exact Or.inl rfl

theorem Args.not_among_changes (hdistinct : args.Distinct)
    (hspared : args.Spared) :
    ¬ Among args.Changes args.Writes args.sourceFilename := by
  unfold Args.Distinct Args.Spared Among Args.Changes at *
  by_cases hsource : isMtd args.sourceFilename = true
  · rw [if_pos hsource] at hdistinct ⊢
    exact hdistinct
  · rw [if_neg hsource] at hdistinct ⊢
    rcases hspared with hmtd | hnames
    · exact (hsource hmtd).elim
    · by_cases htarget : isMtd args.target = true
      · rw [if_pos htarget] at hnames ⊢
        rintro (hexpendable | hcache)
        · exact hnames.1 hexpendable
        · exact hnames.2 hcache
      · rw [if_neg htarget] at hnames ⊢
        rintro (hout | hsame)
        · exact hnames hout
        · exact hdistinct hsame

/-- What running the patch function changes, for both kinds of target. -/
theorem safe_runPatch_kept {changed : Path → Prop} {flashed : Bytes → Prop}
    (hout : isMtd args.target = false → changed args.outname)
    (oldData patch : Bytes) :
    Prog.Safe (sem board) (Kept changed flashed w)
      (fun r _ => ∀ result fed output, r = some (result, fed, output) →
        output.OfKind args)
      (runPatch patchers args oldData patch) w := by
  unfold runPatch
  split
  · rename_i hmtd
    refine safe_bind (safe_readOnly (c := .malloc _) trivial Kept.refl) ?_
    rintro allocated _ - ⟨rfl, -⟩
    cases allocated with
    | false => exact ⟨Kept.refl, by simp⟩
    | true =>
        cases patchProgram patchers oldData patch with
        | none => exact ⟨Kept.refl, by simp⟩
        | some prog =>
            refine ⟨Kept.refl, ?_⟩
            rintro result fed output ⟨⟩
            exact hmtd
  · rename_i hmtd
    have hplain : isMtd args.target = false := by simpa using hmtd
    refine safe_bind (safe_perform (c := .openTrunc args.outname) Kept.refl
      (by rintro _ rfl; exact hout hplain) (by rintro _ ⟨⟩)) ?_
    rintro opened w' - hopened
    cases opened with
    | false => exact ⟨Kept.refl, by simp⟩
    | true =>
        rcases hopened with ⟨hfalse, -⟩ | ⟨-, st, -, rfl⟩
        · cases hfalse
        cases patchProgram patchers oldData patch with
        | none => exact ⟨Kept.refl, by simp⟩
        | some prog =>
            refine safe_bind (safe_fileSink_hoist (hout hplain)
              (World.setFile_files_self _ _ _) rfl
              (Prog.Safe.of_yields (Prog.yields_true prog))) ?_
            rintro ⟨result, fed⟩ w' - -
            refine safe_bind (safe_readOnly (c := .fsync _) trivial
              Kept.refl) ?_
            rintro synced _ - ⟨rfl, -⟩
            refine safe_bind (safe_readOnly (c := .close _) trivial
              Kept.refl) ?_
            rintro closed _ - ⟨rfl, -⟩
            refine ⟨Kept.refl, ?_⟩
            rintro result' fed' output ⟨⟩
            exact hplain

section Attempt

variable {sem' : Prog.Semantics Syscall Answer World}
  (hsem : ∀ c w r w', sem' c w r w' → sem board c w r w')

include hsem

/-- A pass changes no more than its preparation and the output.  `results` is
what the patch function may return. -/
theorem safe_attempt_kept {sel : Selection} {retry : Nat} {madeCopy : Bool}
    (results : Int → Prop)
    (hprepare : Prog.Safe sem' (Kept args.Changes args.Writes w)
      (fun r _ => ∀ left copied, r = some (left, copied) →
        isMtd args.target = false → copied = false)
      (prepare args sel retry madeCopy) w)
    (hresult : ∀ w oldData, sel.toUse.data = .live oldData →
      Prog.Safe sem' (fun _ => True)
        (fun r _ => ∀ result fed output, r = some (result, fed, output) →
          results result)
        (runPatch patchers args oldData sel.patch.data) w) :
    Prog.Safe sem' (Kept args.Changes args.Writes w)
      (fun outcome _ => outcome.Quiet args ∧
        ∀ copied, outcome = .again copied → ∃ result ≠ 0, results result)
      (attempt patchers args sel retry madeCopy) w := by
  refine safe_bind hprepare ?_
  rintro prepared w' - hcopied
  cases prepared with
  | none => exact ⟨Kept.refl, trivial, by simp⟩
  | some prepared =>
      obtain ⟨left, copied⟩ := prepared
      have hquiet := hcopied left copied rfl
      simp only
      split
      · exact ⟨Kept.refl, trivial, by simp⟩
      · cases hdata : sel.toUse.data with
        | null => exact ⟨Kept.refl, fun r _ happ => (hsem _ _ _ _ happ).elim⟩
        | freed => exact ⟨Kept.refl, fun r _ happ => (hsem _ _ _ _ happ).elim⟩
        | live oldData =>
            have hkept : Prog.Safe (sem board)
                (Kept args.Changes args.Writes w') _
                (runPatch patchers args oldData sel.patch.data) w' :=
              safe_runPatch_kept args.changes_outname oldData sel.patch.data
            have hrun := (hkept.restrict hsem).and (hresult w' oldData hdata)
            refine safe_bind (hrun.mono (fun _ h => h.1)
              (fun _ _ _ h => h)) ?_
            rintro ran w'' - ⟨hkind, hallowed⟩
            cases ran with
            | none => exact ⟨Kept.refl, trivial, by simp⟩
            | some ran =>
                obtain ⟨result, fed, output⟩ := ran
                simp only
                split
                · exact ⟨Kept.refl, ⟨hkind result fed output rfl, hquiet⟩,
                    by simp⟩
                · rename_i hfailed
                  have hagain : ∃ result ≠ 0, results result :=
                    ⟨result, hfailed, hallowed result fed output rfl⟩
                  split
                  · exact ⟨Kept.refl, trivial, by simp⟩
                  · split
                    · rename_i hplain
                      have hout := args.changes_outname (by simpa using hplain)
                      refine safe_bind ((safe_perform
                        (c := .unlink args.outname) Kept.refl
                        (by rintro _ rfl; exact hout)
                        (by rintro _ ⟨⟩)).restrict hsem) ?_
                      rintro _ _ - -
                      exact ⟨Kept.refl, hquiet, fun _ _ => hagain⟩
                    · exact ⟨Kept.refl, hquiet, fun _ _ => hagain⟩

end Attempt

/-- Preparation where the source is never moved. -/
theorem safe_prepare_immovable {sel : Selection} (retry : Nat)
    {madeCopy : Bool}
    (hstays : isMtd args.target = true ∨ isMtd args.sourceFilename = true ∨
      sel.fromSource = false)
    (hcopy : isMtd args.target = false → madeCopy = false) :
    Prog.Safe (sem board) (Kept args.Changes args.Writes w)
      (fun r _ => ∀ left copied, r = some (left, copied) →
        isMtd args.target = false → copied = false)
      (prepare args sel retry madeCopy) w := by
  unfold prepare
  split
  · rename_i hmtd
    have hchanges : ∀ path, Expendable path → args.Changes path := by
      intro path hpath
      rw [Args.Changes, if_pos hmtd]
      exact Or.inl hpath
    have hcache : args.Changes CACHE_TEMP_SOURCE := by
      rw [Args.Changes, if_pos hmtd]
      exact Or.inr rfl
    refine safe_bind (safe_backUp sel.sourceFile hchanges hcache) ?_
    rintro saved w' - -
    cases saved with
    | false => exact ⟨Kept.refl, by simp⟩
    | true => exact ⟨Kept.refl, by simp [hmtd]⟩
  · rename_i hplain
    have hplain : isMtd args.target = false := by simpa using hplain
    refine safe_bind (safe_enoughSpace retry Kept.refl) ?_
    rintro enough _ - rfl
    cases enough with
    | true =>
        refine ⟨Kept.refl, ?_⟩
        rintro left copied ⟨⟩ -
        exact hcopy hplain
    | false =>
        rcases hstays with hmtd | hmtd | hcopyUsed
        · rw [hplain] at hmtd
          cases hmtd
        · simp only [hmtd, if_true, Bool.false_eq_true, if_false]
          split
          · exact ⟨Kept.refl, by simp⟩
          · refine ⟨Kept.refl, ?_⟩
            rintro left copied ⟨⟩ -
            exact hcopy hplain
        · simp only [hcopyUsed, Bool.false_eq_true, if_false]
          refine ⟨Kept.refl, ?_⟩
          rintro left copied ⟨⟩ -
          exact hcopy hplain

theorem safe_patchLoop_immovable {sel : Selection} (retry : Nat)
    {madeCopy : Bool}
    (hstays : isMtd args.target = true ∨ isMtd args.sourceFilename = true ∨
      sel.fromSource = false)
    (hcopy : isMtd args.target = false → madeCopy = false) :
    Prog.Safe (sem board) (Kept args.Changes args.Writes w)
      (fun outcome _ => outcome.Quiet args)
      (patchLoop patchers args sel retry madeCopy) w := by
  have hattempt : ∀ (w : World) (retry : Nat) {madeCopy : Bool},
      (isMtd args.target = false → madeCopy = false) →
      Prog.Safe (sem board) (Kept args.Changes args.Writes w)
        (fun outcome _ => outcome.Quiet args)
        (attempt patchers args sel retry madeCopy) w := by
    intro w retry madeCopy hcopy
    refine (safe_attempt_kept (fun _ _ _ _ h => h) (fun _ => True)
      (safe_prepare_immovable retry hstays hcopy) ?_).mono (fun _ h => h)
      (fun _ _ _ h => h.1)
    intro w oldData _
    exact (safe_any _).mono (fun _ h => h) (fun _ _ _ _ _ _ _ _ => trivial)
  induction retry generalizing w madeCopy with
  | zero => exact hattempt w 0 hcopy
  | succ retry ih =>
      refine safe_bind (hattempt w (retry + 1) hcopy) ?_
      rintro outcome w' - hquiet
      cases outcome with
      | exit code => exact ⟨Kept.refl, hquiet⟩
      | again madeCopy => exact ih hquiet
      | patched output fed madeCopy => exact ⟨Kept.refl, hquiet⟩

section Roomy

variable {sem' : Prog.Semantics Syscall Answer World}
  (hsem : ∀ c w r w', sem' c w r w' → sem board c w r w')
  (hroomy : ∀ c w r w', sem' c w r w' → args.Roomy c r)

include hroomy

theorem safe_fileSink_full (data : Bytes) :
    Prog.Safe sem' (fun _ => True) (fun r _ => r = (data.length : Int))
      (fileSink args.outname data) w := by
  have hloop : ∀ fuel (data : Bytes) done (w : World), data.length ≤ fuel →
      Prog.Safe sem' (fun _ => True) (fun r _ => r = done + data.length)
        (fileSinkLoop args.outname fuel data done) w := by
    intro fuel
    induction fuel with
    | zero =>
        intro data done w hfuel
        refine ⟨trivial, ?_⟩
        omega
    | succ fuel ih =>
        intro data done w hfuel
        unfold fileSinkLoop
        by_cases hempty : data = []
        · simp only [hempty, if_true]
          exact ⟨trivial, rfl⟩
        · simp only [hempty, if_false]
          have hpos := List.length_pos_iff.mpr hempty
          have hwrite : Prog.Safe sem' (fun _ => True)
              (fun r _ => r = (data.length : Int)) (write args.outname data)
              w :=
            ⟨trivial, fun r w' happ =>
              ⟨trivial, hroomy _ _ _ _ happ rfl⟩⟩
          refine hwrite.bind ?_
          rintro _ w' - rfl
          rw [if_neg (by omega), Int.toNat_natCast, List.drop_length]
          exact ih [] (done + data.length) w' (Nat.zero_le _)
  refine (hloop data.length data 0 w le_rfl).bind ?_
  rintro done w' - rfl
  exact ⟨trivial, by simp⟩

/-- A pass with room for the output succeeds, or ends the run. -/
theorem safe_runPatch_full (hplain : isMtd args.target = false)
    {oldData patch : Bytes}
    (hsucceeds : ∀ prog, patchProgram patchers oldData patch = some prog →
      Prog.Safe fullSem (fun _ => True) (fun r _ => r.1 = 0) prog ()) :
    Prog.Safe sem' (fun _ => True)
      (fun r _ => ∀ result fed output, r = some (result, fed, output) →
        result = 0)
      (runPatch patchers args oldData patch) w := by
  have hany : ∀ {α : Type} (prog : SysProg α) (w : World),
      Prog.Safe sem' (fun _ => True) (fun _ _ => True) prog w :=
    fun prog w => Prog.Safe.of_yields (Prog.yields_true prog)
  unfold runPatch
  simp only [hplain, Bool.false_eq_true, if_false]
  refine (hany _ _).bind ?_
  rintro opened w' - -
  cases opened with
  | false => exact ⟨trivial, by simp⟩
  | true =>
      cases hprog : patchProgram patchers oldData patch with
      | none => exact ⟨trivial, by simp⟩
      | some prog =>
          have hrun : Prog.Safe sem' (fun _ => True)
              (fun r _ => r.1 = 0 ∧ True)
              (prog.hoist (fileSink args.outname)) w' := by
            refine Prog.Safe.hoist (fun _ => ()) (fun _ => True) ?_
              (fun _ _ _ => trivial) trivial (hsucceeds prog hprog)
            rintro data w'' - -
            exact (safe_fileSink_full hroomy data).mono (fun _ h => h)
              fun _ _ _ h => ⟨h, trivial⟩
          refine hrun.bind ?_
          rintro ⟨result, fed⟩ w'' - ⟨hzero, -⟩
          refine (hany _ _).bind ?_
          rintro synced w3 - -
          refine (hany _ _).bind ?_
          rintro closed w4 - -
          refine ⟨trivial, ?_⟩
          rintro result' fed' output ⟨⟩
          exact hzero

include hsem

theorem safe_patchLoop_roomy (hplain : isMtd args.target = false)
    {sel : Selection}
    (hsucceeds : ∀ oldData prog, sel.toUse.data = .live oldData →
      patchProgram patchers oldData sel.patch.data = some prog →
      Prog.Safe fullSem (fun _ => True) (fun r _ => r.1 = 0) prog ()) :
    Prog.Safe sem' (Kept args.Changes args.Writes w)
      (fun outcome _ => outcome.Quiet args)
      (patchLoop patchers args sel 1 false) w := by
  have hprepare : Prog.Safe sem' (Kept args.Changes args.Writes w)
      (fun r _ => ∀ left copied, r = some (left, copied) →
        isMtd args.target = false → copied = false)
      (prepare args sel 1 false) w := by
    unfold prepare
    simp only [hplain, Bool.false_eq_true, if_false]
    have henough : Prog.Safe sem' (Kept args.Changes args.Writes w)
        (fun r _ => r = true) (enoughSpace args 1) w := by
      refine ⟨Kept.refl, ?_⟩
      intro sf w' happ
      have hsame : w' = w := hsem _ _ _ _ happ
      rw [hsame]
      refine ⟨Kept.refl, ?_⟩
      exact decide_eq_true (hroomy _ _ _ _ happ rfl)
    refine safe_bind henough ?_
    rintro _ w' - rfl
    refine ⟨Kept.refl, ?_⟩
    rintro left copied ⟨⟩ -
    rfl
  refine safe_bind (safe_attempt_kept hsem (· = 0) hprepare ?_) ?_
  · intro w oldData hdata
    exact safe_runPatch_full hroomy hplain fun prog hprog =>
      hsucceeds oldData prog hdata hprog
  · rintro outcome w' - ⟨hquiet, hagain⟩
    cases outcome with
    | exit code => exact ⟨Kept.refl, hquiet⟩
    | again madeCopy =>
        obtain ⟨result, hne, hzero⟩ := hagain madeCopy rfl
        exact (hne hzero).elim
    | patched output fed madeCopy => exact ⟨Kept.refl, hquiet⟩

end Roomy

theorem safe_commit_kept {targetSha1 : Bytes} (sel : Selection)
    {outcome : Outcome} (hquiet : outcome.Quiet args) :
    Prog.Safe (sem board) (Kept args.Changes args.Writes w) (fun _ _ => True)
      (commit sha1 args targetSha1 sel outcome) w := by
  cases outcome with
  | exit code => exact ⟨Kept.refl, trivial⟩
  | again madeCopy => exact ⟨Kept.refl, trivial⟩
  | patched output fed madeCopy =>
      obtain ⟨hkind, hcopy⟩ := hquiet
      have hreplace : Prog.Safe (sem board)
          (Kept args.Changes args.Writes w) (fun _ _ => True)
          (replaceTarget args sel.toUse.st output) w := by
        cases output with
        | memory buffer =>
            exact (safe_writeToMTDPartition buffer hkind ⟨hkind, rfl⟩).mono
              (fun _ h => h) (fun _ _ _ _ => trivial)
        | file =>
            have hout := args.changes_outname hkind
            have htarget : args.Changes args.target := by
              rw [Args.Changes, if_neg (by
                simp [show isMtd args.target = false from hkind])]
              exact Or.inr rfl
            refine safe_bind (safe_perform (c := .chmod args.outname _)
              Kept.refl (by rintro _ rfl; exact hout) (by rintro _ ⟨⟩)) ?_
            rintro modeSet w' - -
            split
            · refine safe_bind (safe_perform (c := .chown args.outname _ _)
                Kept.refl (by rintro _ rfl; exact hout) (by rintro _ ⟨⟩)) ?_
              rintro ownerSet w'' - -
              split
              · refine (safe_perform (c := .rename args.outname args.target)
                  Kept.refl ?_ (by rintro _ ⟨⟩)).mono (fun _ h => h)
                  (fun _ _ _ _ => trivial)
                rintro path (rfl | rfl)
                · exact hout
                · exact htarget
              · exact ⟨Kept.refl, trivial⟩
            · exact ⟨Kept.refl, trivial⟩
      simp only [commit]
      split
      · exact ⟨Kept.refl, trivial⟩
      · refine safe_bind hreplace ?_
        rintro replaced w' - -
        split
        · cases madeCopy with
          | false => exact ⟨Kept.refl, trivial⟩
          | true =>
              have hcache : args.Changes CACHE_TEMP_SOURCE := by
                by_cases hmtd : isMtd args.target = true
                · rw [Args.Changes, if_pos hmtd]
                  exact Or.inr rfl
                · have hfalse := hcopy (by simpa using hmtd)
                  cases hfalse
              refine safe_bind (safe_perform (c := .unlink CACHE_TEMP_SOURCE)
                Kept.refl (by rintro _ rfl; exact hcache)
                (by rintro _ ⟨⟩)) ?_
              rintro _ _ - -
              exact ⟨Kept.refl, trivial⟩
        · exact ⟨Kept.refl, trivial⟩

/-- The run up to the loop, and the rest of the run around it. -/
theorem safe_applypatch_kept {sem' : Prog.Semantics Syscall Answer World}
    (hsem : ∀ c w r w', sem' c w r w' → sem board c w r w')
    (hloop : ∀ sel w', Same w w' → Selected board sha1 args w' sel →
      Prog.Safe sem' (Kept args.Changes args.Writes w')
        (fun outcome _ => outcome.Quiet args)
        (patchLoop patchers args sel 1 false) w') :
    Prog.Safe sem' (Kept args.Changes args.Writes w) (fun _ _ => True)
      (applypatch sha1 patchers args) w := by
  unfold applypatch
  cases parseSha1 args.targetSha1Str with
  | none => exact ⟨Kept.refl, trivial⟩
  | some targetSha1 =>
      refine safe_bind ((safe_readOnly (c := .uninitialised) trivial
        Kept.refl).restrict hsem) ?_
      rintro ⟨size, st⟩ _ - ⟨rfl, -⟩
      refine safe_bind ((safe_of_same
        (safe_loadFileContents _ args.target)).restrict hsem) ?_
      rintro ⟨loaded, sourceFile⟩ w₁ - ⟨hsame₁, hsome, hnone⟩
      simp only
      split
      · exact ⟨Kept.refl, trivial⟩
      · have htarget : sourceFile.data ≠ .null →
            Loaded board sha1 w₁ args.target sourceFile :=
          loaded_of_live hsome hnone
        refine safe_bind ((safe_of_same
          (safe_loadSource htarget)).restrict hsem) ?_
        rintro sourceFile w₂ - ⟨hsame₂, hloaded⟩
        refine safe_bind ((safe_of_same
          (safe_selectSource hloaded)).restrict hsem) ?_
        rintro selected w₃ - ⟨hsame₃, hselected⟩
        cases selected with
        | none => exact ⟨Kept.refl, trivial⟩
        | some sel =>
            refine safe_bind (hloop sel w₃ ((hsame₁.trans hsame₂).trans hsame₃)
              (hselected sel rfl)) ?_
            rintro outcome w₄ - hquiet
            exact (safe_commit_kept sel hquiet).restrict hsem

/-- Nothing but the named files changes in a run that does not have to move
the source. -/
theorem safe_unhurried
    (hsucceeds : Immovable board sha1 args w ∨
      PatchSucceeds board sha1 patchers args w) :
    Prog.Safe (unhurriedSem board sha1 args w)
      (Kept args.Changes args.Writes w) (fun _ _ => True)
      (applypatch sha1 patchers args) w := by
  have hsem : ∀ c w₁ r w₂, unhurriedSem board sha1 args w c w₁ r w₂ →
      sem board c w₁ r w₂ := fun _ _ _ _ happ => happ.1
  refine safe_applypatch_kept hsem ?_
  intro sel w' hsame hselected
  obtain ⟨data, hdata, -, hpatch, hfrom⟩ := hselected
  by_cases himmovable : Immovable board sha1 args w
  · have hstays : isMtd args.target = true ∨
        isMtd args.sourceFilename = true ∨ sel.fromSource = false := by
      rcases himmovable with hmtd | hmtd | hunlisted
      · exact Or.inl hmtd
      · exact Or.inr (Or.inl hmtd)
      · refine Or.inr (Or.inr ?_)
        by_contra hsource
        rw [Bool.not_eq_false] at hsource
        rw [if_pos hsource] at hfrom
        rw [hunlisted data (hfrom.2.of_same hsame.symm)] at hpatch
        cases hpatch
    exact (safe_patchLoop_immovable 1 hstays (fun _ => rfl)).restrict hsem
  · have hroomy : ∀ c w₁ r w₂, unhurriedSem board sha1 args w c w₁ r w₂ →
        args.Roomy c r := fun _ _ _ _ happ => happ.2.resolve_left himmovable
    have hplain : isMtd args.target = false := by
      by_contra hmtd
      exact himmovable (Or.inl (by simpa using hmtd))
    by_cases hsource : sel.fromSource = true
    · rw [if_pos hsource] at hfrom
      refine safe_patchLoop_roomy hsem hroomy hplain ?_
      intro oldData prog hold hprog
      rw [hdata, Buffer.live.injEq] at hold
      subst hold
      exact hsucceeds.resolve_left himmovable data sel.patch prog
        (hfrom.2.of_same hsame.symm) hpatch hprog
    · exact (safe_patchLoop_immovable 1
        (Or.inr (Or.inr (by simpa using hsource))) (fun _ => rfl)).restrict hsem

/-- **When the source survives a successful run.**  In fact it is there, and
unchanged, at every point of the run. -/
theorem source_preserved (hdistinct : args.Distinct) (hspared : args.Spared)
    (hsucceeds : Immovable board sha1 args w ∨
      PatchSucceeds board sha1 patchers args w) {w' : World}
    (hrun : Prog.Reaches (unhurriedSem board sha1 args w)
      (applypatch sha1 patchers args, w) (.ret 0, w')) :
    ∀ data, Contents board w args.sourceFilename data →
      Contents board w' args.sourceFilename data := by
  intro data hcontents
  exact hcontents.of_kept ((safe_unhurried hsucceeds).inv_of_reaches hrun)
    (args.not_among_changes hdistinct hspared)

end Preservation

namespace PatchWitness

theorem args_distinct : args.Distinct := by
  unfold Args.Distinct Among
  rw [if_neg (by decide)]
  decide

theorem unhurried_allowed (c : Syscall) (w : World) (r : Answer c) (w' : World)
    (hanswer : reliable board (2 ^ 20) c w = some (r, w')) :
    unhurriedSem board tableSha1 args sourceOnly c w r w' := by
  refine ⟨reliable_allowed c w r w' hanswer, Or.inr ?_⟩
  cases c with
  | statfs path =>
      cases hanswer
      intro _
      decide
  | write path data =>
      cases hanswer
      exact fun _ => rfl
  | _ => trivial

/-- With a megabyte of free space the source stays. -/
theorem emptyTarget_source_preserved :
    args.Distinct ∧ ∀ data, Contents board sourceOnly args.sourceFilename data →
      Contents board patched args.sourceFilename data := by
  have hspared : args.Spared := by
    refine Or.inr ?_
    rw [if_neg (by decide)]
    decide
  have hsucceeds : PatchSucceeds board tableSha1 patchers args sourceOnly := by
    intro data patch prog _ _ hprog
    rw [eq_sinkNothing hprog]
    exact ⟨trivial, fun _ _ _ => ⟨trivial, rfl⟩⟩
  have hrun : Prog.Reaches (unhurriedSem board tableSha1 args sourceOnly)
      (applypatch tableSha1 patchers args, sourceOnly) (.ret 0, patched) :=
    Prog.reaches_advance unhurried_allowed _ _
  exact ⟨args_distinct,
    source_preserved args_distinct hspared (Or.inr hsucceeds) hrun⟩

/-- The state after a run that finds 100 bytes of free space. -/
def cramped : World :=
  ((applypatch tableSha1 patchers args).advance (reliable board 100)
    sourceOnly).2

/-- The run succeeds, and the source is gone. -/
theorem cramped_source_lost :
    args.Distinct ∧ Contents board sourceOnly args.sourceFilename [97] ∧
      Prog.Reaches (sem board) (applypatch tableSha1 patchers args, sourceOnly)
        (.ret 0, cramped) ∧
      ¬ Contents board cramped args.sourceFilename [97] := by
  have hplain : isMtd args.sourceFilename = false := by decide
  have hrun : Prog.Reaches (sem board)
      (applypatch tableSha1 patchers args, sourceOnly)
      ((applypatch tableSha1 patchers args).advance (reliable board 100)
        sourceOnly) :=
    Prog.reaches_advance reliable_allowed _ _
  refine ⟨args_distinct, ?_, hrun, ?_⟩
  · rw [Contents, hplain]
    exact ⟨_, rfl, rfl⟩
  · rw [Contents, hplain]
    rintro ⟨file, hfile, -⟩
    have hgone : cramped.files args.sourceFilename = none := rfl
    rw [hgone] at hfile
    cases hfile

end PatchWitness

end ApplyPatch

end MetaOS
