/-
What a successful `applypatch` leaves behind.

For a plain target every way to return 0 goes through a file whose hash was
checked: the target as it was found, or the output as it was written and then
renamed.  A second call finds the first of the two.
-/
import MetaOS.LoadSave

namespace MetaOS

namespace ApplyPatch

open FileSystem

/-- The reads of a file that exists succeed. -/
def ReadsSucceed : (c : Syscall) → World → Answer c → Prop
  | .stat path, w, r => (w.files path).isSome → r.isSome
  | .fopen path, w, r => (w.files path).isSome → r = true
  | .fread path len, w, r => r = (w.contents path).take len
  | _, _, _ => True

/-- The answers the system may give when reads succeed. -/
def readableSem (board : Board) : Prog.Semantics Syscall Answer World :=
  fun c w r w' => sem board c w r w' ∧ ReadsSucceed c w r

/-- The target is a file with the expected hash. -/
def TargetDone (sha1 : Bytes → Bytes) (args : Args) (w : World) : Prop :=
  ∃ file, w.files args.target = some file ∧
    parseSha1 args.targetSha1Str = some (sha1 file.data)

/-- Both patch functions hash what their sink accepts. -/
def PatchFunctions.Feed (patchers : PatchFunctions) : Prop :=
  ∀ oldData patch, Feeds (patchers.applyBSDiffPatch oldData patch) ∧
    Feeds (patchers.applyImagePatch oldData patch)

/-- A pass either gives up with an error or has written what it hashed. -/
def Output.Holds (args : Args) (w : World) (fed : Bytes) : Output → Prop
  | .memory _ => False
  | .file => ∃ file, w.files args.outname = some file ∧ file.data = fed

def Outcome.Sound (args : Args) (w : World) : Outcome → Prop
  | .exit code => code = 1
  | .again _ => True
  | .patched output fed _ => output.Holds args w fed

section Target

variable {board : Board} {sha1 : Bytes → Bytes} {patchers : PatchFunctions}
  {args : Args} {w : World}

theorem safe_any {α : Type} (prog : SysProg α) :
    Prog.Safe (sem board) (fun _ => True) (fun _ _ => True) prog w :=
  Prog.Safe.of_yields (Prog.yields_true prog)

/-- Whatever function the header asks for, it hashes what its sink accepts. -/
def Selection.Feeds (patchers : PatchFunctions) (sel : Selection) : Prop :=
  ∀ oldData prog, sel.toUse.data = .live oldData →
    patchProgram patchers oldData sel.patch.data = some prog →
    ApplyPatch.Feeds prog

theorem PatchFunctions.Feed.selection (hfeed : patchers.Feed)
    (sel : Selection) : sel.Feeds patchers := by
  intro oldData prog _ hprog
  obtain rfl | rfl := patchProgram_cases hprog
  · exact (hfeed _ _).1
  · exact (hfeed _ _).2

section Plain

variable (hplain : isMtd args.target = false)

include hplain

/-- A pass that succeeds has written what it hashed. -/
theorem safe_runPatch {oldData patch : Bytes}
    (hfeeds : ∀ prog, patchProgram patchers oldData patch = some prog →
      Feeds prog) :
    Prog.Safe (sem board) (fun _ => True)
      (fun r w' => ∀ fed output, r = some (0, fed, output) →
        output.Holds args w' fed)
      (runPatch patchers args oldData patch) w := by
  unfold runPatch
  simp only [hplain, Bool.false_eq_true, if_false]
  refine (safe_call (.openTrunc args.outname) w).bind ?_
  rintro opened w' - hopened
  cases opened with
  | false => exact ⟨trivial, by simp⟩
  | true =>
      rcases hopened with ⟨hfalse, -⟩ | ⟨-, st, -, rfl⟩
      · cases hfalse
      cases hprog : patchProgram patchers oldData patch with
      | none => exact ⟨trivial, by simp⟩
      | some prog =>
          have hrun : Prog.Safe (sem board)
              (Kept (fun _ => True) (fun _ => True) _) _
              (prog.hoist (fileSink args.outname)) _ :=
            safe_fileSink_hoist trivial (World.setFile_files_self w
              args.outname (some ⟨[], st⟩)) rfl (hfeeds prog hprog)
          refine (hrun.mono (fun _ _ => trivial) (fun _ _ _ h => h)).bind ?_
          rintro ⟨result, fed⟩ w' - ⟨file, hfile, hfed⟩
          refine (safe_readOnly (c := .fsync _) trivial trivial).bind ?_
          rintro synced _ - ⟨rfl, -⟩
          refine (safe_readOnly (c := .close _) trivial trivial).bind ?_
          rintro closed _ - ⟨rfl, -⟩
          refine ⟨trivial, ?_⟩
          rintro fed' output ⟨⟩
          exact ⟨file, hfile, (hfed rfl).symm⟩

variable {sel : Selection} (hfeeds : sel.Feeds patchers)

include hfeeds

theorem safe_attempt (retry : Nat) (madeCopy : Bool) :
    Prog.Safe (sem board) (fun _ => True)
      (fun outcome w' => outcome.Sound args w')
      (attempt patchers args sel retry madeCopy) w := by
  refine (safe_any _).bind ?_
  rintro prepared w' - -
  cases prepared with
  | none => exact ⟨trivial, rfl⟩
  | some prepared =>
      obtain ⟨retry, madeCopy⟩ := prepared
      simp only
      split
      · exact ⟨trivial, rfl⟩
      · cases hdata : sel.toUse.data with
        | null => exact ⟨trivial, fun r _ happ => happ.elim⟩
        | freed => exact ⟨trivial, fun r _ happ => happ.elim⟩
        | live oldData =>
            refine (safe_runPatch hplain fun prog hprog =>
              hfeeds oldData prog hdata hprog).bind ?_
            rintro ran w'' - hran
            cases ran with
            | none => exact ⟨trivial, rfl⟩
            | some ran =>
                obtain ⟨result, fed, output⟩ := ran
                simp only
                split
                · rename_i hzero
                  exact ⟨trivial, hran fed output (by rw [hzero])⟩
                · split
                  · exact ⟨trivial, rfl⟩
                  · split
                    · exact (safe_any _).bind fun _ _ _ _ => ⟨trivial, trivial⟩
                    · exact ⟨trivial, trivial⟩

theorem safe_patchLoop (retry : Nat) (madeCopy : Bool) :
    Prog.Safe (sem board) (fun _ => True)
      (fun outcome w' => outcome.Sound args w')
      (patchLoop patchers args sel retry madeCopy) w := by
  induction retry generalizing w madeCopy with
  | zero => exact safe_attempt hplain hfeeds 0 madeCopy
  | succ retry ih =>
      refine (safe_attempt hplain hfeeds (retry + 1) madeCopy).bind ?_
      rintro outcome w' - hsound
      cases outcome with
      | exit code => exact ⟨trivial, hsound⟩
      | again madeCopy => exact ih madeCopy
      | patched output fed madeCopy => exact ⟨trivial, hsound⟩

end Plain

/-- The output takes the place of the target, all at once. -/
theorem safe_replaceTarget (st : Stat) {file : File}
    (hfile : w.files args.outname = some file) :
    Prog.Safe (sem board)
      (fun w' => Kept (· = args.outname) (fun _ => False) w w' ∨
        ∃ file', w'.files args.target = some file' ∧ file'.data = file.data)
      (fun r w' => r = true → ∃ file', w'.files args.target = some file' ∧
        file'.data = file.data)
      (replaceTarget args st .file) w := by
  have hchmod : Prog.Safe (sem board)
      (Kept (· = args.outname) (fun _ => False) w)
      (fun _ w' => ∃ moved, w'.files args.outname = some moved ∧
        moved.data = file.data)
      (chmod args.outname st.mode) w := by
    refine (safe_perform (c := .chmod args.outname st.mode) Kept.refl
      (fun _ h => h) (fun _ h => h)).mono (fun _ h => h) ?_
    rintro r w' - (⟨-, rfl⟩ | ⟨-, rfl⟩)
    · exact ⟨file, hfile, rfl⟩
    · simp [hfile]
  refine (hchmod.mono (fun _ h => Or.inl h) (fun _ _ h h' =>
    And.intro h h')).bind ?_
  rintro modeSet w₁ - ⟨hkept₁, file₁, hfile₁, hdata₁⟩
  cases modeSet with
  | false => exact ⟨Or.inl hkept₁, by simp⟩
  | true =>
      have hchown : Prog.Safe (sem board)
          (Kept (· = args.outname) (fun _ => False) w)
          (fun _ w' => ∃ moved, w'.files args.outname = some moved ∧
            moved.data = file.data)
          (chown args.outname st.uid st.gid) w₁ := by
        refine (safe_perform (c := .chown args.outname st.uid st.gid) hkept₁
          (fun _ h => h) (fun _ h => h)).mono (fun _ h => h) ?_
        rintro r w' - (⟨-, rfl⟩ | ⟨-, rfl⟩)
        · exact ⟨file₁, hfile₁, hdata₁⟩
        · simp [hfile₁, hdata₁]
      refine (hchown.mono (fun _ h => Or.inl h) (fun _ _ h h' =>
        And.intro h h')).bind ?_
      rintro ownerSet w₂ - ⟨hkept₂, file₂, hfile₂, hdata₂⟩
      cases ownerSet with
      | false => exact ⟨Or.inl hkept₂, by simp⟩
      | true =>
          simp only [if_true]
          refine ⟨Or.inl hkept₂, ?_⟩
          rintro r w' (⟨rfl, rfl⟩ | ⟨-, moved, hmoved, rfl⟩)
          · exact ⟨Or.inl hkept₂, by simp⟩
          · rw [hfile₂, Option.some.injEq] at hmoved
            subst hmoved
            have hdone : ∃ file', ((w₂.setFile args.outname none).setFile
                args.target (some file₂)).files args.target = some file' ∧
                file'.data = file.data :=
              ⟨file₂, World.setFile_files_self _ _ _, hdata₂⟩
            exact ⟨Or.inr hdone, fun _ => hdone⟩

theorem safe_commit (hcache : args.target ≠ CACHE_TEMP_SOURCE)
    {targetSha1 : Bytes}
    (hsha1 : parseSha1 args.targetSha1Str = some targetSha1)
    (sel : Selection) {outcome : Outcome} (hsound : outcome.Sound args w) :
    Prog.Safe (sem board) (fun _ => True)
      (fun code w' => code = 0 → TargetDone sha1 args w')
      (commit sha1 args targetSha1 sel outcome) w := by
  cases outcome with
  | exit code =>
      refine ⟨trivial, fun hzero => ?_⟩
      rw [show code = 1 from hsound] at hzero
      cases hzero
  | again madeCopy => exact ⟨trivial, by simp⟩
  | patched output fed madeCopy =>
      simp only [commit]
      split
      · exact ⟨trivial, by simp⟩
      · rename_i hhash
        rw [ne_eq, not_not] at hhash
        cases output with
        | memory buffer => exact hsound.elim
        | file =>
            obtain ⟨file, hfile, rfl⟩ := hsound
            refine ((safe_replaceTarget _ hfile).mono (fun _ _ => trivial)
              (fun _ _ _ h => h)).bind ?_
            rintro replaced w' - hreplaced
            cases replaced with
            | false => exact ⟨trivial, by simp⟩
            | true =>
                obtain ⟨file', hfile', hdata⟩ := hreplaced rfl
                have hdone : parseSha1 args.targetSha1Str =
                    some (sha1 file'.data) := by
                  rw [hsha1, hdata, hhash]
                cases madeCopy with
                | false => exact ⟨trivial, fun _ => ⟨file', hfile', hdone⟩⟩
                | true =>
                    refine (safe_call (.unlink CACHE_TEMP_SOURCE) w').bind ?_
                    rintro unlinked w'' - hunlink
                    refine ⟨trivial, fun _ => ⟨file', ?_, hdone⟩⟩
                    rcases hunlink with ⟨-, rfl⟩ | ⟨-, rfl⟩
                    · exact hfile'
                    · rw [World.setFile_files_ne _ _ hcache]
                      exact hfile'

/-- However it comes to return 0, the target has the expected hash. -/
theorem safe_applypatch (hplain : isMtd args.target = false)
    (hcache : args.target ≠ CACHE_TEMP_SOURCE) (hfeed : patchers.Feed) :
    Prog.Safe (sem board) (fun _ => True)
      (fun code w' => code = 0 → TargetDone sha1 args w')
      (applypatch sha1 patchers args) w := by
  unfold applypatch
  cases hsha1 : parseSha1 args.targetSha1Str with
  | none => exact ⟨trivial, by simp⟩
  | some targetSha1 =>
      refine (safe_any _).bind ?_
      rintro ⟨size, st⟩ w' - -
      refine ((safe_loadFileContents _ args.target).mono (fun _ _ => trivial)
        (fun _ _ _ h => h)).bind ?_
      rintro ⟨loaded, sourceFile⟩ w' - ⟨hloaded, -⟩
      simp only
      split
      · rename_i hearly
        obtain ⟨data, -, -, hhash, hdata⟩ := hloaded hearly.1
        rw [Contents, hplain] at hdata
        obtain ⟨file, hfile, rfl⟩ := hdata
        refine ⟨trivial, fun _ => ⟨file, hfile, ?_⟩⟩
        rw [hsha1, ← hhash, hearly.2]
      · refine (safe_any _).bind ?_
        rintro sourceFile w' - -
        refine (safe_any _).bind ?_
        rintro sel w' - -
        cases sel with
        | none => exact ⟨trivial, by simp⟩
        | some sel =>
            refine (safe_patchLoop hplain (hfeed.selection sel) 1
              false).bind ?_
            rintro outcome w' - hsound
            exact safe_commit hcache hsha1 sel hsound

/-- A load of a file that can be read. -/
theorem returns_loadFileContents (file : FileContents) {filename : Path}
    (hplain : isMtd filename = false) {stored : File}
    (hstored : w.files filename = some stored) :
    Prog.Returns (readableSem board)
      (fun r w' => w' = w ∧ r.1 = true ∧ r.2.sha1 = sha1 stored.data)
      (loadFileContents sha1 file filename) w := by
  have hcontents : w.contents filename = stored.data := by
    rw [World.contents, hstored, Option.map_some, Option.getD_some]
  have hstat : Prog.Returns (readableSem board)
      (fun r w' => w' = w ∧ r = some (stored.data.length, stored.st))
      (stat filename) w := by
    refine Prog.Returns.perform ⟨some (stored.data.length, stored.st), w,
      ⟨rfl, ?_⟩, fun _ => rfl⟩ ?_
    · rintro answer ⟨⟩
      exact ⟨stored, hstored, rfl⟩
    · rintro r _ ⟨⟨rfl, hanswer⟩, hsome⟩
      obtain ⟨answer, rfl⟩ := Option.isSome_iff_exists.mp
        (hsome (by rw [hstored]; rfl))
      obtain ⟨file', hfile', rfl⟩ := hanswer answer rfl
      rw [hstored, Option.some.injEq] at hfile'
      rw [hfile']
      exact ⟨rfl, rfl⟩
  have hopen : Prog.Returns (readableSem board)
      (fun r w' => w' = w ∧ r = true) (fopen filename) w := by
    have hexists : (w.files filename).isSome = true := by rw [hstored]; rfl
    refine Prog.Returns.perform ⟨true, w, ⟨rfl, fun _ => hexists⟩,
      fun _ => rfl⟩ ?_
    rintro r _ ⟨⟨rfl, -⟩, hopened⟩
    exact ⟨rfl, hopened hexists⟩
  have hread : Prog.Returns (readableSem board)
      (fun r w' => w' = w ∧ r = stored.data)
      (fread filename stored.data.length) w := by
    have hwhole : (w.contents filename).take stored.data.length =
        stored.data := by
      rw [hcontents, List.take_length]
    refine Prog.Returns.perform ⟨_, w, ⟨rfl, List.prefix_rfl⟩, rfl⟩ ?_
    rintro r _ ⟨⟨rfl, -⟩, hdata⟩
    exact ⟨rfl, hdata.trans hwhole⟩
  unfold loadFileContents
  simp only [hplain, Bool.false_eq_true, if_false]
  refine hstat.bind ?_
  rintro _ _ ⟨rfl, rfl⟩
  refine hopen.bind ?_
  rintro _ _ ⟨rfl, rfl⟩
  refine hread.bind ?_
  rintro _ _ ⟨rfl, rfl⟩
  simp only [ne_eq, not_true_eq_false, if_false]
  refine ⟨⟨true, _, rfl, trivial⟩, ?_⟩
  rintro closed _ ⟨rfl, -⟩
  exact ⟨rfl, rfl, rfl⟩

/-- A target with the expected hash is left alone. -/
theorem returns_applypatch (hplain : isMtd args.target = false)
    (hdone : TargetDone sha1 args w) :
    Prog.Returns (readableSem board) (fun code w' => code = 0 ∧ w' = w)
      (applypatch sha1 patchers args) w := by
  obtain ⟨file, hfile, hhash⟩ := hdone
  unfold applypatch
  simp only [hhash]
  refine ⟨⟨(0, ⟨0, 0, 0⟩), w, rfl, trivial⟩, ?_⟩
  rintro ⟨size, st⟩ _ ⟨rfl, -⟩
  refine (returns_loadFileContents _ hplain hfile).bind ?_
  rintro ⟨loaded, sourceFile⟩ _ ⟨rfl, hloaded, hsha1⟩
  simp only at hloaded hsha1
  simp only [hloaded, hsha1, and_self, if_true]
  exact ⟨rfl, rfl⟩

/-- **Postcondition and idempotence for a plain target.** -/
theorem applypatch_idempotent (hplain : isMtd args.target = false)
    (hcache : args.target ≠ CACHE_TEMP_SOURCE) (hfeed : patchers.Feed)
    {w' : World}
    (hrun : Prog.Reaches (sem board) (applypatch sha1 patchers args, w)
      (.ret 0, w')) :
    (∃ file, w'.files args.target = some file ∧
      parseSha1 args.targetSha1Str = some (sha1 file.data)) ∧
    Prog.Returns (readableSem board) (fun code w'' => code = 0 ∧ w'' = w')
      (applypatch sha1 patchers args) w' := by
  have hdone : TargetDone sha1 args w' :=
    (safe_applypatch hplain hcache hfeed).post_of_reaches hrun rfl
  exact ⟨hdone, returns_applypatch hplain hdone⟩

end Target

namespace PatchWitness

def emptyHex : Bytes := ascii "da39a3ee5e6b4b0d3255bfef95601890afd80709"

def letterHex : Bytes := ascii "86f7e437faa5a7fce15d1ddcb9eaeaea377667b8"

def otherHex : Bytes := ascii "e9d71f5ee7c92d6dc9e92ffdad17b8bd49418f98"

/-- The hashes of the empty file and of the files that hold one `a` or one
`b`. -/
def tableSha1 (data : Bytes) : Bytes :=
  if data = [] then (parseSha1 emptyHex).getD []
  else if data = [97] then (parseSha1 letterHex).getD []
  else if data = [98] then (parseSha1 otherHex).getD []
  else List.replicate 20 0

/-- A patch whose header announces an empty result, without any streams. -/
def emptyPatch : Bytes := ascii "BSDIFF40" ++ List.replicate 24 0

/-- What `ApplyBSDiffPatch` does with it. -/
def sinkNothing : PatchProg := do
  let _ ← Prog.perform ([] : Bytes)
  pure (0, [])

def patchers : PatchFunctions :=
  ⟨fun _ _ => sinkNothing, fun _ _ => sinkNothing⟩

theorem eq_sinkNothing {oldData patch : Bytes} {prog : PatchProg}
    (hprog : patchProgram patchers oldData patch = some prog) :
    prog = sinkNothing := by
  obtain rfl | rfl := patchProgram_cases hprog
  · rfl
  · rfl

theorem patchers_feed : patchers.Feed := by
  have hfeeds : Feeds sinkNothing := by
    refine ⟨trivial, ?_⟩
    rintro r accepted ⟨count, -, -, rfl⟩
    exact ⟨trivial, by simp⟩
  exact fun _ _ => ⟨hfeeds, hfeeds⟩

def part : Mtd.Partition := ⟨4, 2, Nat.two_pos⟩

def board : Board := ⟨fun _ => part, fun _ => Mtd.Flash.faultFree part⟩

/-- From `/a/old` to `/b/new`. -/
def args : Args where
  sourceFilename := ascii "/a/old"
  targetFilename := ascii "/b/new"
  targetSha1Str := emptyHex
  targetSize := 0
  patchSha1Str := [letterHex]
  patchData := [some ⟨.blob, emptyPatch⟩]

/-- Only the source is there. -/
def sourceOnly : World where
  files path :=
    if path = ascii "/a/old" then some ⟨[97], ⟨0o644, 0, 0⟩⟩ else none
  device _ := ⟨fun _ => ⟨[255, 255], 0⟩, 0, 0⟩

/-- The state after a run with a megabyte of free space. -/
def patched : World :=
  ((applypatch tableSha1 patchers args).advance (reliable board (2 ^ 20))
    sourceOnly).2

theorem reaches_patched :
    Prog.Reaches (sem board) (applypatch tableSha1 patchers args, sourceOnly)
      (.ret 0, patched) := by
  have hreturn : ((applypatch tableSha1 patchers args).advance
      (reliable board (2 ^ 20)) sourceOnly).1 = .ret 0 := rfl
  have hrun : Prog.Reaches (sem board)
      (applypatch tableSha1 patchers args, sourceOnly)
      ((applypatch tableSha1 patchers args).advance
        (reliable board (2 ^ 20)) sourceOnly) :=
    Prog.reaches_advance reliable_allowed _ _
  rw [← hreturn]
  exact hrun

theorem emptyTarget_idempotent :
    isMtd args.target = false ∧ args.target ≠ CACHE_TEMP_SOURCE ∧
    (∃ file, patched.files args.target = some file ∧
      parseSha1 args.targetSha1Str = some (tableSha1 file.data)) ∧
    Prog.Returns (readableSem board) (fun code w => code = 0 ∧ w = patched)
      (applypatch tableSha1 patchers args) patched := by
  have hplain : isMtd args.target = false := by decide
  have hcache : args.target ≠ CACHE_TEMP_SOURCE := by decide
  exact ⟨hplain, hcache,
    applypatch_idempotent hplain hcache patchers_feed reaches_patched⟩

end PatchWitness

end ApplyPatch

end MetaOS
