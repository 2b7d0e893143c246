/-
What loading and saving a file does.

`Contents` says what is stored under a name, for files and for partitions
alike.  A partition has no end; whatever its good blocks begin with counts as
its content, as it does for `LoadMTDContents`.
-/
import MetaOS.ApplyPatch
import MetaOS.MtdAborts

namespace MetaOS

namespace ApplyPatch

open FileSystem CString

/-- The good blocks of a partition begin with the data. -/
def Stored {part : Mtd.Partition} (flash : Mtd.Flash part)
    (block : Nat → Mtd.Block) (data : Bytes) : Prop :=
  ∃ datas, Mtd.Ahead flash ⟨block, 0, 0⟩ datas ∧ data <+: datas.flatten

/-- The partition that `LoadMTDContents` reads. -/
def partitionName (filename : Path) : Bytes :=
  (tokens isColon filename).tail.head?.getD []

/-- The data is stored under the name. -/
def Contents (board : Board) (w : World) (filename : Path) (data : Bytes) :
    Prop :=
  if isMtd filename then
    Stored (board.flash (partitionName filename))
      (w.device (partitionName filename)).block data
  else ∃ file, w.files filename = some file ∧ file.data = data

/-- The name stands for a file in `changed` or a partition in `flashed`. -/
def Among (changed : Path → Prop) (flashed : Bytes → Prop)
    (filename : Path) : Prop :=
  if isMtd filename then flashed (partitionName filename)
  else changed filename

section Specs

variable {board : Board} {w : World}

theorem Contents.of_kept {changed : Path → Prop} {flashed : Bytes → Prop}
    {w' : World} {filename : Path} {data : Bytes}
    (hcontents : Contents board w filename data)
    (hkept : Kept changed flashed w w')
    (hname : ¬ Among changed flashed filename) :
    Contents board w' filename data := by
  unfold Contents Among at *
  split
  · rename_i hmtd
    rw [if_pos hmtd] at hcontents hname
    rw [hkept.blocks _ hname]
    exact hcontents
  · rename_i hmtd
    rw [if_neg hmtd] at hcontents hname
    rw [hkept.files _ hname]
    exact hcontents

theorem Contents.of_same {w' : World} {filename : Path} {data : Bytes}
    (hcontents : Contents board w filename data) (hsame : Same w w') :
    Contents board w' filename data := by
  refine hcontents.of_kept hsame ?_
  unfold Among
  split
  · exact id
  · exact id

/-- A program on a partition, with what it does to the device. -/
theorem safe_onFlash {α : Type} {name : Bytes} {prog : Mtd.MtdProg α}
    {inv : World → Prop} {flashInv : Mtd.Device → Prop}
    {post : α → Mtd.Device → Prop}
    (hinv : ∀ dev, flashInv dev → inv (w.setDevice name dev))
    (hsafe : Prog.Safe (board.flash name).answers flashInv post prog
      (w.device name)) :
    Prog.Safe (sem board) inv
      (fun value w' => ∃ dev, w' = w.setDevice name dev ∧ post value dev)
      (onFlash name prog) w := by
  induction prog generalizing w with
  | ret value =>
      refine ⟨?_, w.device name, (w.setDevice_self name).symm, hsafe.2⟩
      have hnow := hinv _ hsafe.1
      rwa [World.setDevice_self] at hnow
  | call c next ih =>
      refine ⟨?_, ?_⟩
      · have hnow := hinv _ hsafe.1
        rwa [World.setDevice_self] at hnow
      · rintro r _ ⟨dev, happ, rfl⟩
        refine (ih r ?_ ?_).mono (fun _ h => h) ?_
        · intro dev' hflash
          rw [World.setDevice_setDevice]
          exact hinv dev' hflash
        · rw [World.setDevice_device_self]
          exact hsafe.2 r dev happ
        · rintro value _ - ⟨dev', rfl, hpost⟩
          exact ⟨dev', by simp, hpost⟩

theorem safe_answers_of_aborts {α : Type} {part : Mtd.Partition}
    {flash : Mtd.Flash part} {prog : Mtd.MtdProg α} {bad : α → Prop}
    (haborts : prog.Aborts Mtd.Call.Fails bad) {dev : Mtd.Device} :
    Prog.Safe flash.answers (fun _ => True)
      (fun value dev' => bad value ∨ (value, dev') = flash.run prog dev)
      prog dev := by
  refine Prog.Safe.of_aborts _ ?_ haborts
  rintro c dev r after (hsame | ⟨hfail, -⟩)
  · exact Or.inl hsame
  · exact Or.inr hfail

/-- A program on one partition: either it reports a failure, or it has run as
on a device without failures. -/
theorem safe_onFlash_aborts {α : Type} {name : Bytes}
    {prog : Mtd.MtdProg α} {bad : α → Prop} {changed : Path → Prop}
    {flashed : Bytes → Prop} (hname : flashed name)
    (haborts : prog.Aborts Mtd.Call.Fails bad) :
    Prog.Safe (sem board) (Kept changed flashed w)
      (fun value w' => bad value ∨
        (value, w'.device name) =
          (board.flash name).run prog (w.device name))
      (onFlash name prog) w := by
  refine (safe_onFlash (fun dev _ => Kept.setDevice hname)
    (safe_answers_of_aborts haborts)).mono (fun _ h => h) ?_
  rintro value _ - ⟨dev, rfl, hpost⟩
  rw [World.setDevice_device_self]
  exact hpost

/-- The same for a program that only looks at the blocks. -/
theorem safe_onFlash_looks {α : Type} {name : Bytes} {prog : Mtd.MtdProg α}
    {bad : α → Prop} {changed : Path → Prop} {flashed : Bytes → Prop}
    (hlooks : prog.Issues Mtd.Call.Looks)
    (haborts : prog.Aborts Mtd.Call.Fails bad) :
    Prog.Safe (sem board) (Kept changed flashed w)
      (fun value w' => bad value ∨
        (value, w'.device name) =
          (board.flash name).run prog (w.device name))
      (onFlash name prog) w := by
  have hblocks : Prog.Safe (board.flash name).answers
      (fun dev => dev.block = (w.device name).block) (fun _ _ => True) prog
      (w.device name) := by
    refine Prog.Safe.of_issues ?_ hlooks rfl
    intro c dev r after hc hblock happ
    exact ((board.flash name).block_of_answers hc happ).trans hblock
  refine (safe_onFlash (fun dev hflash => Kept.setDevice_of_block hflash.1)
    (hblocks.and (safe_answers_of_aborts haborts))).mono (fun _ h => h) ?_
  rintro value _ - ⟨dev, rfl, -, hpost⟩
  rw [World.setDevice_device_self]
  exact hpost

/-- A buffer filled with the contents of a file. -/
def Loaded (board : Board) (sha1 : Bytes → Bytes) (w : World)
    (filename : Path) (file : FileContents) : Prop :=
  ∃ data, file.data = .live data ∧ file.size = data.length ∧
    file.sha1 = sha1 data ∧ Contents board w filename data

variable {changed : Path → Prop} {flashed : Bytes → Prop}
  {sha1 : Bytes → Bytes}

theorem safe_parsePairs (pairs : Nat) (toks : List Bytes) :
    Prog.Safe (sem board) (Kept changed flashed w) (fun _ w' => w' = w)
      (parsePairs pairs toks) w := by
  induction pairs generalizing toks with
  | zero => exact ⟨Kept.refl, rfl⟩
  | succ pairs ih =>
      cases toks with
      | nil => exact ⟨Kept.refl, fun r _ happ => happ.elim⟩
      | cons size toks =>
          unfold parsePairs
          split
          · exact ⟨Kept.refl, rfl⟩
          · refine (ih toks.tail).bind ?_
            rintro rest w' hkept rfl
            exact ⟨hkept, rfl⟩

/-- What is read is a piece of what the context holds: `start` and `dev` are
the context and the device when nothing was read yet. -/
theorem safe_matchPairs {name : Bytes} {start : Mtd.ReadContext}
    {dev : Mtd.Device} (pairs : List (Nat × Option Bytes))
    {ctx : Mtd.ReadContext} {soFar : Bytes}
    (hready : ctx.Ready (board.part name))
    (hread : ∀ {stream},
      Mtd.Holds (board.flash name) ctx (w.device name) stream →
        Mtd.Holds (board.flash name) start dev (soFar ++ stream)) :
    Prog.Safe (sem board) (Kept changed flashed w)
      (fun r _ => r.1 = true → ∃ stream,
        Mtd.Holds (board.flash name) start dev (r.2 ++ stream))
      (matchPairs sha1 name (board.part name) pairs ctx soFar) w := by
  induction pairs generalizing w ctx soFar with
  | nil => exact ⟨Kept.refl, by simp⟩
  | cons pair pairs ih =>
      obtain ⟨size, sha1sum⟩ := pair
      unfold matchPairs
      refine safe_bind (safe_onFlash_looks (Mtd.issues_mtdReadData _ _ _)
        (Mtd.aborts_mtdReadData _ _ _)) ?_
      rintro ⟨read, ctx'⟩ w' hkept hpost
      cases read with
      | none => exact ⟨Kept.refl, by simp⟩
      | some data =>
          rcases hpost with hbad | hrun
          · cases hbad
          obtain ⟨hready', hbefore⟩ := Mtd.Holds.of_read _ hready hrun.symm
          have hread' : ∀ {stream}, Mtd.Holds (board.flash name) ctx'
              (w'.device name) stream → Mtd.Holds (board.flash name) start dev
                (soFar ++ data ++ stream) := by
            intro stream hholds
            rw [List.append_assoc]
            exact hread (hbefore hholds)
          dsimp only
          split
          · exact ⟨Kept.refl, by simp⟩
          cases sha1sum with
          | none => exact ⟨Kept.refl, fun r _ happ => happ.elim⟩
          | some text =>
              simp only
              cases parseSha1 text with
              | none => exact ⟨Kept.refl, by simp⟩
              | some parsed =>
                  simp only
                  split
                  · exact ⟨Kept.refl, fun _ =>
                      ⟨_, hread' (hready'.holds _ _)⟩⟩
                  · exact ih hready' hread'

theorem safe_loadMTDContents {file : FileContents} {filename : Path}
    (hmtd : isMtd filename = true) (hnull : file.data = .null) :
    Prog.Safe (sem board) (Same w)
      (fun r w' => (r.1 = true → Loaded board sha1 w' filename r.2) ∧
        (r.1 = false → r.2.data = .null))
      (loadMTDContents sha1 file filename) w := by
  have hfailed : ∀ w : World,
      Prog.Safe (sem board) (Same w)
        (fun r w' => (r.1 = true → Loaded board sha1 w' filename r.2) ∧
          (r.1 = false → r.2.data = .null))
        (Prog.ret (false, file)) w :=
    fun w => ⟨Kept.refl, by simp [hnull]⟩
  unfold loadMTDContents
  simp only
  split
  · exact hfailed w
  · refine safe_bind (safe_parsePairs _ _) ?_
    rintro pairs _ - rfl
    cases pairs with
    | none => exact hfailed _
    | some pairs =>
        cases hpartition : (tokens isColon filename).tail.head? with
        | none => exact ⟨Kept.refl, fun r _ happ => happ.elim⟩
        | some partition =>
            have hname : partitionName filename = partition := by
              rw [partitionName, hpartition, Option.getD_some]
            refine safe_bind (safe_readOnly (c := .mtdFind partition) trivial
              Kept.refl) ?_
            rintro found w' - ⟨rfl, -, hfound⟩
            cases found with
            | none => exact hfailed _
            | some part =>
                obtain ⟨-, rfl⟩ := hfound part rfl
                refine safe_bind (safe_onFlash_looks
                  (Mtd.issues_mtdReadPartition _)
                  (Mtd.aborts_mtdReadPartition _)) ?_
                rintro ctx w'' hopened hpost
                cases ctx with
                | none => exact hfailed _
                | some ctx =>
                    rcases hpost with hbad | hrun
                    · cases hbad
                    simp only [Mtd.mtdReadPartition, Mtd.Flash.run_bind,
                      Mtd.Flash.run_openDevice, if_true, Prog.pure_eq_ret,
                      Mtd.Flash.run_ret, Prod.mk.injEq, Option.some.injEq]
                      at hrun
                    obtain ⟨rfl, hdev⟩ := hrun
                    refine safe_bind (safe_matchPairs _
                      ⟨List.length_replicate, le_rfl⟩ fun h => h) ?_
                    rintro ⟨matched, soFar⟩ w3 hkept hmatched
                    cases matched with
                    | false => exact ⟨Kept.refl, by simp [hnull]⟩
                    | true =>
                        refine ⟨Kept.refl, fun _ => ?_, by simp⟩
                        obtain ⟨stream, -, -, datas, -, hahead, hstream⟩ :=
                          hmatched rfl
                        refine ⟨soFar, rfl, rfl, rfl, ?_⟩
                        rw [Contents, if_pos hmtd, hname]
                        refine ⟨datas, ?_, ⟨stream, ?_⟩⟩
                        · have hblock := hkept.blocks partition id
                          unfold Mtd.Ahead at hahead ⊢
                          rw [hdev] at hahead hblock
                          rw [hblock]
                          exact hahead
                        · rw [hstream, List.drop_replicate, Nat.sub_self]
                          rfl

/-- A load changes nothing.  What it reports as loaded is stored. -/
theorem safe_loadFileContents (file : FileContents) (filename : Path) :
    Prog.Safe (sem board) (Same w)
      (fun r w' => (r.1 = true → Loaded board sha1 w' filename r.2) ∧
        (r.1 = false → r.2.data = .null))
      (loadFileContents sha1 file filename) w := by
  unfold loadFileContents
  simp only
  by_cases hmtd : isMtd filename = true
  · rw [if_pos hmtd]
    exact safe_loadMTDContents hmtd rfl
  · rw [if_neg hmtd]
    refine safe_bind (safe_readOnly (c := .stat filename) trivial
      Kept.refl) ?_
    rintro answer w' - ⟨rfl, -, hanswer⟩
    cases answer with
    | none => exact ⟨Kept.refl, by simp⟩
    | some answer =>
        obtain ⟨stored, hstored, rfl⟩ := hanswer answer rfl
        refine safe_bind (safe_readOnly (c := .fopen filename) trivial
          Kept.refl) ?_
        rintro opened w' - ⟨rfl, -, -⟩
        cases opened with
        | false => exact ⟨Kept.refl, by simp⟩
        | true =>
            refine safe_bind (safe_readOnly (c := .fread filename _) trivial
              Kept.refl) ?_
            rintro data w' - ⟨rfl, -, hdata⟩
            split
            · exact ⟨Kept.refl, by simp⟩
            · rename_i hshort
              rw [ne_eq, not_not] at hshort
              refine safe_bind (safe_readOnly (c := .close filename) trivial
                Kept.refl) ?_
              rintro closed w' - ⟨rfl, -⟩
              have hwhole : data = stored.data := by
                rw [World.contents, hstored, Option.map_some,
                  Option.getD_some, List.take_length] at hdata
                exact hdata.eq_of_length hshort
              refine ⟨Kept.refl, fun _ => ⟨data, rfl, hshort.symm, rfl, ?_⟩,
                by simp⟩
              rw [Contents, if_neg hmtd]
              exact ⟨stored, hstored, hwhole.symm⟩

/-- A sink takes over a first piece of what it is offered, and answers with
its length or an error. -/
def sinkSem : Prog.Semantics Bytes (fun _ => Int) Bytes :=
  fun data accepted r accepted' => ∃ count ≤ data.length,
    (r = count ∨ count = 0 ∧ r = -1) ∧ accepted' = accepted ++ data.take count

/-- A patch function that returns 0 has fed the hash context exactly the bytes
its sink accepted. -/
def Feeds (prog : PatchProg) : Prop :=
  Prog.Safe sinkSem (fun _ => True)
    (fun r accepted => r.1 = 0 → r.2 = accepted) prog []

theorem safe_fileSinkLoop {path : Path} {file : File}
    (hpath : changed path) (hfile : w.files path = some file)
    (fuel : Nat) (data : Bytes) (done : Nat) :
    Prog.Safe (sem board) (Kept changed flashed w)
      (fun r w' => ∃ count ≤ data.length, r = done + count ∧
        ∃ file', w'.files path = some file' ∧
          file'.data = file.data ++ data.take count)
      (fileSinkLoop path fuel data done) w := by
  have hstop : ∀ (data : Bytes) (done : Nat), ∃ count ≤ data.length,
      done = done + count ∧ ∃ file', w.files path = some file' ∧
        file'.data = file.data ++ data.take count := by
    intro data done
    exact ⟨0, Nat.zero_le _, rfl, file, hfile, by simp⟩
  induction fuel generalizing w file data done with
  | zero => exact ⟨Kept.refl, hstop data done⟩
  | succ fuel ih =>
      unfold fileSinkLoop
      by_cases hempty : data = []
      · simp only [hempty, if_true]
        exact ⟨Kept.refl, hstop [] done⟩
      · simp only [hempty, if_false]
        refine safe_bind (safe_perform (c := .write path data) Kept.refl
          (by rintro _ rfl; exact hpath) (by rintro _ ⟨⟩)) ?_
        rintro (wrote : Int) w' - ⟨count, hcount, hanswer, rfl⟩
        have hwrote : wrote = (count : Int) ∨ count = 0 ∧ wrote = (-1 : Int) :=
          hanswer
        have hfile' : (w.modify path fun file =>
            { file with data := file.data ++ data.take count }).files path =
            some { file with data := file.data ++ data.take count } := by
          rw [World.modify_files_self, hfile, Option.map_some]
        by_cases hfailed : wrote ≤ 0
        · have hzero : count = 0 := by omega
          simp only [hfailed, if_true]
          exact ⟨Kept.refl, 0, Nat.zero_le _, rfl, _, hfile',
            by simp [hzero]⟩
        · have hsame : wrote.toNat = count := by omega
          simp only [hfailed, if_false, hsame]
          refine (ih hfile' (data.drop count) (done + count) ?_).mono
            (fun _ h => h) ?_
          · intro data' done'
            exact ⟨0, Nat.zero_le _, rfl, _, hfile', by simp⟩
          · rintro r w' - ⟨more, hmore, rfl, file', hafter, hdata⟩
            rw [List.length_drop] at hmore
            refine ⟨count + more, by omega, by omega, file', hafter, ?_⟩
            rw [hdata, List.take_add, List.append_assoc]

theorem safe_fileSink {path : Path} {file : File} (hpath : changed path)
    (hfile : w.files path = some file) (data : Bytes) :
    Prog.Safe (sem board) (Kept changed flashed w)
      (fun r w' => ∃ count ≤ data.length, r = (count : Int) ∧
        ∃ file', w'.files path = some file' ∧
          file'.data = file.data ++ data.take count)
      (fileSink path data) w := by
  refine (safe_fileSinkLoop hpath hfile data.length data 0).bind ?_
  rintro done w' hkept ⟨count, hcount, rfl, hfile'⟩
  exact ⟨hkept, count, hcount, by simp, hfile'⟩

/-- A patch function whose sink is an empty file. -/
theorem safe_fileSink_hoist {path : Path} {file : File} {prog : PatchProg}
    (hpath : changed path) (hfile : w.files path = some file)
    (hempty : file.data = []) {post : Int × Bytes → Bytes → Prop}
    (hprog : Prog.Safe sinkSem (fun _ => True) post prog []) :
    Prog.Safe (sem board) (Kept changed flashed w)
      (fun r w' => ∃ file', w'.files path = some file' ∧ post r file'.data)
      (prog.hoist (fileSink path)) w := by
  have hhoist : Prog.Safe (sem board) (Kept changed flashed w)
      (fun r w' => post r (w'.contents path) ∧
        (Kept changed flashed w w' ∧ ∃ file', w'.files path = some file'))
      (prog.hoist (fileSink path)) w := by
    have hstart : Prog.Safe sinkSem (fun _ => True) post prog
        (w.contents path) := by
      rw [World.contents, hfile, Option.map_some, Option.getD_some, hempty]
      exact hprog
    refine Prog.Safe.hoist (fun w => w.contents path)
      (fun w' => Kept changed flashed w w' ∧
        ∃ file', w'.files path = some file') ?_ ?_
      ⟨Kept.refl, file, hfile⟩ hstart
    · rintro data w' ⟨hkept, file', hfile'⟩ -
      refine (safe_fileSink hpath hfile' data).mono
        (fun _ hlater => hkept.trans hlater) ?_
      rintro r w'' hlater ⟨count, hcount, rfl, file'', hafter, hdata⟩
      refine ⟨⟨count, hcount, Or.inl rfl, ?_⟩, hkept.trans hlater, file'',
        hafter⟩
      simp [World.contents, hafter, hfile', hdata]
    · rintro w' ⟨hkept, -⟩ -
      exact hkept
  refine hhoist.mono (fun _ h => h) ?_
  rintro r w' - ⟨hpost, -, file', hfile'⟩
  simp only [World.contents, hfile', Option.map_some, Option.getD_some]
    at hpost
  exact ⟨file', hfile', hpost⟩

/-- A patch function whose sink is a buffer in memory. -/
theorem memorySink_eval {prog : PatchProg} (size : Nat)
    {post : Int × Bytes → Bytes → Prop}
    (hprog : Prog.Safe sinkSem (fun _ => True) post prog []) :
    post (prog.eval (memorySink size) []).1
      (prog.eval (memorySink size) []).2 := by
  refine hprog.post_of_reaches (Prog.reaches_eval _ ?_ prog [])
  intro data buffer
  unfold memorySink
  split
  · exact ⟨0, Nat.zero_le _, Or.inr ⟨rfl, rfl⟩, by simp⟩
  · exact ⟨data.length, le_rfl, Or.inl rfl, by simp⟩

theorem safe_saveFileContents {filename : Path} (file : FileContents)
    (hfilename : changed filename) :
    Prog.Safe (sem board) (Kept changed flashed w)
      (fun r w' => r = true → ∀ bytes, file.data = .live bytes →
        file.size = bytes.length →
        ∃ saved, w'.files filename = some saved ∧ saved.data = bytes)
      (saveFileContents filename file) w := by
  refine safe_bind (safe_perform (c := .openTrunc filename) Kept.refl
    (by rintro _ rfl; exact hfilename) (by rintro _ ⟨⟩)) ?_
  rintro opened w' - hopened
  cases opened with
  | false => exact ⟨Kept.refl, by simp⟩
  | true =>
      rcases hopened with ⟨hfalse, -⟩ | ⟨-, st, -, rfl⟩
      · cases hfalse
      have hread : Prog.Safe (sem board)
          (Kept changed flashed (w.setFile filename (some ⟨[], st⟩)))
          (fun r w' => w' = w.setFile filename (some ⟨[], st⟩) ∧
            ∀ bytes, file.data = .live bytes → r = bytes)
          (file.data.read file.size)
          (w.setFile filename (some ⟨[], st⟩)) := by
        cases hdata : file.data with
        | live bytes =>
            refine ⟨Kept.refl, rfl, ?_⟩
            rintro _ ⟨⟩
            rfl
        | null =>
            refine (safe_readOnly (c := .garbage file.size) trivial
              Kept.refl).mono (fun _ h => h) ?_
            rintro r _ - ⟨rfl, -⟩
            exact ⟨rfl, by simp⟩
        | freed =>
            refine (safe_readOnly (c := .garbage file.size) trivial
              Kept.refl).mono (fun _ h => h) ?_
            rintro r _ - ⟨rfl, -⟩
            exact ⟨rfl, by simp⟩
      refine safe_bind hread ?_
      rintro bytes _ - ⟨rfl, hbytes⟩
      refine safe_bind (safe_fileSink hfilename
        (World.setFile_files_self _ _ _) bytes) ?_
      rintro written w' - ⟨count, hcount, rfl, saved, hsaved, hdata⟩
      split
      · refine safe_bind (safe_readOnly (c := .close filename) trivial
          Kept.refl) ?_
        rintro closed _ - ⟨rfl, -⟩
        exact ⟨Kept.refl, by simp⟩
      · rename_i hwritten
        refine safe_bind (safe_readOnly (c := .fsync filename) trivial
          Kept.refl) ?_
        rintro synced _ - ⟨rfl, -⟩
        refine safe_bind (safe_readOnly (c := .close filename) trivial
          Kept.refl) ?_
        rintro closed _ - ⟨rfl, -⟩
        refine safe_bind (safe_perform (c := .chmod filename _) Kept.refl
          (by rintro _ rfl; exact hfilename) (by rintro _ ⟨⟩)) ?_
        rintro changed' w'' - hchmod
        cases changed' with
        | false => exact ⟨Kept.refl, by simp⟩
        | true =>
            rcases hchmod with ⟨hfalse, -⟩ | ⟨-, rfl⟩
            · cases hfalse
            refine (safe_perform (c := .chown filename _ _) Kept.refl
              (by rintro _ rfl; exact hfilename) (by rintro _ ⟨⟩)).mono
              (fun _ h => h) ?_
            rintro owned w'' - hchown rfl contents hlive hsize
            rcases hchown with ⟨hfalse, -⟩ | ⟨-, rfl⟩
            · cases hfalse
            have hall : count = bytes.length := by
              rw [hbytes contents hlive] at hcount ⊢
              rw [ne_eq, not_not, hsize] at hwritten
              omega
            simp [hsaved, hdata, hall, hbytes contents hlive]

theorem aborts_writePartition (part : Mtd.Partition) (data : Bytes) :
    (writePartition part data).Aborts Mtd.Call.Fails (· = false) := by
  refine Mtd.aborts_mtdWritePartition.bind (fun opened => ?_) ?_
  · cases opened with
    | none => trivial
    | some ctx =>
        refine (Mtd.aborts_mtdWriteData part ctx data).bind (fun wrote => ?_) ?_
        · refine Prog.Aborts.ite ?_ ?_
          · refine (Mtd.aborts_mtdEraseBlocks part _ _).bind
              (fun erased => ?_) ?_
            · refine Prog.Aborts.ite (Mtd.aborts_mtdWriteClose part _) ?_
              exact (Mtd.aborts_mtdWriteClose part _).bind (fun _ => trivial)
                (fun _ _ => rfl)
            · rintro ⟨_, ctx⟩ rfl
              exact (Prog.yields_true _).bind fun _ _ => rfl
          · exact (Mtd.aborts_mtdWriteClose part _).bind (fun _ => trivial)
              (fun _ _ => rfl)
        · rintro ⟨_, ctx⟩ rfl
          exact (Prog.yields_true _).bind fun _ _ => rfl
  · rintro _ rfl
    rfl

/-- A partition is read under the name it is written under. -/
theorem partitionName_eq {filename : Path} (hmtd : isMtd filename = true)
    (hsome : partitionOf filename ≠ []) :
    partitionName filename = partitionOf filename := by
  obtain ⟨rest, rfl⟩ : ascii "MTD:" <+: filename := by simpa [isMtd] using hmtd
  have hof : partitionOf (ascii "MTD:" ++ rest) =
      rest.takeWhile (!isColon ·) := rfl
  rw [hof] at hsome ⊢
  have hmagic : tokens isColon (ascii "MTD:" ++ rest) =
      ascii "MTD" :: tokens isColon rest := by
    have hname : ascii "MTD" ≠ [] := by decide
    have hplain : ∀ c ∈ ascii "MTD", isColon c = false := by
      simp [ascii, isColon]
    have hcolon : isColon 58 = true := by decide
    exact tokens_append_delim hname hplain hcolon rest
  have hfirst : tokens isColon rest = rest.takeWhile (!isColon ·) ::
      tokens isColon (rest.dropWhile (!isColon ·)) := by
    have hnone : rest.dropWhile isColon = rest := by
      cases rest with
      | nil => rfl
      | cons c rest =>
          rw [List.dropWhile_cons_of_neg]
          intro hc
          simp [hc] at hsome
    rw [tokens_split rest, hnone, if_neg hsome]
  rw [partitionName, hmagic, hfirst]
  rfl

/-- A write that reports success has run as on a device without failures. -/
theorem safe_writeToMTDPartition {targetMtd : Path} (data : Bytes)
    (hmtd : isMtd targetMtd = true)
    (hflashed : flashed (partitionName targetMtd)) :
    Prog.Safe (sem board) (Kept changed flashed w)
      (fun ok w' => ok = true →
        (true, w'.device (partitionName targetMtd)) =
          (board.flash (partitionName targetMtd)).run
            (writePartition (board.part (partitionName targetMtd)) data)
            (w.device (partitionName targetMtd)))
      (writeToMTDPartition data targetMtd) w := by
  unfold writeToMTDPartition
  split
  · refine safe_bind (safe_readOnly (c := .mtdFind _) trivial Kept.refl) ?_
    rintro found _ - ⟨rfl, -, hfound⟩
    cases found with
    | none => exact ⟨Kept.refl, by simp⟩
    | some part =>
        obtain ⟨hsome, rfl⟩ := hfound part rfl
        rw [← partitionName_eq hmtd hsome]
        refine (safe_onFlash_aborts hflashed
          (aborts_writePartition _ data)).mono (fun _ h => h) ?_
        rintro ok w' - hpost rfl
        rcases hpost with hbad | hrun
        · cases hbad
        · exact hrun
  · exact ⟨Kept.refl, by simp⟩

end Specs

end ApplyPatch

end MetaOS
