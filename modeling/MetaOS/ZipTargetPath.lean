/-
minzip/Zip.c: the buffer in which `targetEntryPath` puts the paths of the
entries together.

The model of the extraction has the paths; here is the buffer with the bytes
that are stored in it, and the `int`s that the code reckons with.  A directory
that exists has a path far shorter than the bound on `targetDir` below, and
the length of a name is a field of two bytes.
-/
import MetaOS.ZipReports

namespace MetaOS

namespace ZipTargetPath

open MinZip

def toInt (x : Int) : Int := x.bmod (2 ^ 32)

/-- An `int` that is passed as a `size_t`. -/
def toSize (x : Int) : Nat := (x % 2 ^ 32).toNat

/-- `buf` is the block that `realloc` has returned last. -/
structure Helper where
  targetDir : Bytes
  zipDir : Bytes
  buf : Option Bytes
  targetDirLen : Int
  zipDirLen : Int
  bufLen : Int

/-- What `realloc` answers: nothing, or what lies in the new memory. -/
abbrev Fresh := Option (Nat → UInt8)

/-- The helper as `mzExtractRecursive` sets it up. -/
def Helper.init (args : ExtractArgs) : Helper where
  targetDir := args.targetDir
  zipDir := canonicalPath args.zipDir
  buf := none
  targetDirLen := toInt args.targetDir.length
  zipDirLen := toInt (canonicalPath args.zipDir).length
  bufLen := 0

/-- The old bytes stay as far as they fit. -/
def realloc (old : Option Bytes) (size : Nat) (fresh : Fresh) :
    Option Bytes :=
  fresh.map fun fresh =>
    (List.range size).map fun i => ((old.getD [])[i]?).getD (fresh i)

/-- There is no result if a byte is read or written outside of its object. -/
def memcpy (buf : Bytes) (off : Int) (src : Bytes) (count : Int) :
    Option Bytes :=
  if 0 ≤ off ∧ 0 ≤ count ∧ count ≤ src.length ∧ off + count ≤ buf.length then
    some (buf.take off.toNat ++ src.take count.toNat ++
      buf.drop (off + count).toNat)
  else none

/-- The path needs so many bytes. -/
def Helper.needLen (helper : Helper) (entry : ZipEntry) : Int :=
  toInt (helper.targetDirLen + 1 + entry.fileName.length - helper.zipDirLen +
    1)

/-- The buffer is made twice as long as needed, if it is too short. -/
def Helper.grow (helper : Helper) (entry : ZipEntry) (fresh : Fresh) :
    Option Helper :=
  if helper.bufLen < helper.needLen entry then
    let needLen := toInt (helper.needLen entry * 2)
    (realloc helper.buf (toSize needLen) fresh).map fun newBuf =>
      { helper with buf := some newBuf, bufLen := needLen }
  else some helper

/-- Every path starts with the target directory and a slash. -/
def Helper.putTarget (helper : Helper) : Option Helper := do
  let buf ← helper.buf
  let buf ← memcpy buf 0 helper.targetDir helper.targetDirLen
  let len := helper.targetDirLen
  if len = 0 ∨ buf[(len - 1).toNat]? ≠ some slash then
    let buf ← memcpy buf len [slash] 1
    some { helper with buf := some buf, targetDirLen := toInt (len + 1) }
  else some { helper with buf := some buf }

def Helper.start (helper : Helper) (firstTime : Bool) : Option Helper :=
  if firstTime then helper.putTarget else some helper

def Helper.putName (helper : Helper) (entry : ZipEntry) : Option Helper := do
  let buf ← helper.buf
  let rest := toInt (entry.fileName.length - helper.zipDirLen)
  let buf ← memcpy buf helper.targetDirLen
    (entry.fileName.drop helper.zipDirLen.toNat) rest
  let buf ← memcpy buf (helper.targetDirLen + rest) [0] 1
  some { helper with buf := some buf }

/-- The block that the pointer returned is the start of, if it is not null. -/
def targetEntryPath (helper : Helper) (entry : ZipEntry) (fresh : Fresh) :
    Option (Option Bytes × Helper) :=
  match helper.grow entry fresh with
  | none => some (none, helper)
  | some grown => do
      let rooted ← grown.start helper.buf.isNone
      let named ← rooted.putName entry
      some (named.buf, named)

/-- One call after another, with the helper as each call leaves it. -/
def calls : Helper → List (ZipEntry × Fresh) →
    Option (List (Option Bytes × Helper))
  | _, [] => some []
  | helper, (entry, fresh) :: rest => do
      let (path, helper) ← targetEntryPath helper entry fresh
      let others ← calls helper rest
      some ((path, helper) :: others)

section Memory

theorem toInt_eq {x : Int} (hlow : 0 ≤ x) (hhigh : x < 2 ^ 31) :
    toInt x = x :=
  Int.bmod_eq_of_le (by omega) (by omega)

theorem toSize_eq {n : Nat} (hn : n < 2 ^ 32) : toSize n = n := by
  rw [toSize]
  omega

theorem realloc_some {old : Option Bytes} {size : Nat} {fresh : Fresh}
    {block : Bytes} (hrealloc : realloc old size fresh = some block)
    (hold : (old.getD []).length ≤ size) :
    block.length = size ∧ old.getD [] <+: block := by
  obtain ⟨fresh, -, rfl⟩ := Option.map_eq_some_iff.mp hrealloc
  refine ⟨by simp, List.prefix_iff_getElem?.mpr fun i hi => ?_⟩
  rw [List.getElem?_map, List.getElem?_range (by omega), Option.map_some,
    List.getElem?_eq_getElem hi, Option.getD_some]

/-- Bytes that are stored behind others leave them as they are. -/
theorem memcpy_behind {buf front : Bytes} (off : Int) (src : Bytes)
    (count : Int) (hfront : front <+: buf) (hoff : off = front.length)
    (hcount : count = src.length)
    (hfits : front.length + src.length ≤ buf.length) :
    ∃ after, memcpy buf off src count = some after ∧
      after.length = buf.length ∧ front ++ src <+: after := by
  subst hoff hcount
  rw [memcpy, if_pos (by omega)]
  refine ⟨_, rfl, ?_, ?_⟩
  · simp only [List.length_append, List.length_take, List.length_drop]
    omega
  · rw [Int.toNat_natCast, Int.toNat_natCast, List.take_length,
      ← List.prefix_iff_eq_take.mp hfront]
    exact List.prefix_append _ _

end Memory

/-- What holds of the helper between two calls. -/
structure Helper.Ready (args : ExtractArgs) (helper : Helper) : Prop where
  targetDir : helper.targetDir = args.targetDir
  zipDirLen : helper.zipDirLen = (canonicalPath args.zipDir).length
  fresh : helper.buf = none →
    helper.bufLen = 0 ∧ helper.targetDirLen = args.targetDir.length
  rooted : ∀ buf, helper.buf = some buf → helper.bufLen = buf.length ∧
    helper.targetDirLen = (withSlash args.targetDir).length ∧
    withSlash args.targetDir <+: buf

/-- The path of the target is that of a directory, and the entry lies below
`zipDir`. -/
structure Fits (args : ExtractArgs) (entry : ZipEntry) : Prop where
  target : args.targetDir.length < 2 ^ 29
  name : entry.fileName.length < 2 ^ 16
  below : canonicalPath args.zipDir <+: entry.fileName

section Calls

variable {args : ExtractArgs} {helper : Helper} {entry : ZipEntry}
  {fresh : Fresh}

theorem withSlash_length (dir : Bytes) :
    dir.length ≤ (withSlash dir).length ∧
      (withSlash dir).length ≤ dir.length + 1 := by
  rw [withSlash]
  split <;> simp

/-- The directory is as it was given or with its slash. -/
theorem Helper.Ready.targetDirLen_cases (hready : helper.Ready args) :
    helper.targetDirLen = args.targetDir.length ∨
      helper.targetDirLen = (withSlash args.targetDir).length := by
  cases hbuf : helper.buf with
  | none => exact .inl (hready.fresh hbuf).2
  | some buf => exact .inr (hready.rooted buf hbuf).2.1

theorem Helper.Ready.targetDirLen_le (hready : helper.Ready args) :
    0 ≤ helper.targetDirLen ∧
      helper.targetDirLen ≤ args.targetDir.length + 1 := by
  have hslash := withSlash_length args.targetDir
  have hcases := hready.targetDirLen_cases
  omega

/-- The first path has room for the slash that is added to the directory. -/
theorem Helper.Ready.withSlash_le (hready : helper.Ready args) :
    (withSlash args.targetDir).length ≤ helper.targetDirLen + 1 := by
  have hslash := withSlash_length args.targetDir
  have hcases := hready.targetDirLen_cases
  omega

theorem Helper.Ready.needLen_eq (hready : helper.Ready args)
    (hfits : Fits args entry) :
    helper.needLen entry = helper.targetDirLen + 1 + entry.fileName.length -
      helper.zipDirLen + 1 := by
  have hlen := hready.targetDirLen_le
  have hzipDirLen := hready.zipDirLen
  have htarget := hfits.target
  have hname := hfits.name
  have hbelow := hfits.below.length_le
  exact toInt_eq (by omega) (by omega)

/-- The length of the buffer after a call. -/
def Helper.capacity (helper : Helper) (entry : ZipEntry) : Int :=
  if helper.bufLen < helper.needLen entry then helper.needLen entry * 2
  else helper.bufLen

/-- The buffer that is written has room for the path, also where the slash is
yet to be added. -/
theorem Helper.Ready.grow_cases (hready : helper.Ready args)
    (hfits : Fits args entry) :
    (helper.grow entry fresh = none ∧ fresh = none) ∨
      ∃ buf, helper.grow entry fresh =
          some { helper with buf := some buf, bufLen := buf.length } ∧
        helper.buf.getD [] <+: buf ∧
        (buf.length : Int) = helper.capacity entry ∧
        helper.targetDirLen + entry.fileName.length + 2 ≤
          buf.length + helper.zipDirLen := by
  have hneed := hready.needLen_eq hfits
  have hlen := hready.targetDirLen_le
  have hzipDirLen := hready.zipDirLen
  have htarget := hfits.target
  have hname := hfits.name
  have hbelow := hfits.below.length_le
  rw [Helper.grow, Helper.capacity]
  split
  next hgrow =>
    have htwice : toInt (helper.needLen entry * 2) =
        helper.needLen entry * 2 := toInt_eq (by omega) (by omega)
    have hsize : toSize (helper.needLen entry * 2) =
        (helper.needLen entry * 2).toNat := by
      have hcast := toSize_eq (n := (helper.needLen entry * 2).toNat)
        (by omega)
      rwa [Int.toNat_of_nonneg (by omega)] at hcast
    have hold : (helper.buf.getD []).length ≤ helper.bufLen := by
      cases hbuf : helper.buf with
      | none => simp [(hready.fresh hbuf).1]
      | some buf => simp [(hready.rooted buf hbuf).1]
    cases hrealloc : realloc helper.buf (toSize (helper.needLen entry * 2))
        fresh with
    | none =>
        left
        simp only [htwice, hrealloc, Option.map_none, true_and]
        exact Option.map_eq_none_iff.mp hrealloc
    | some buf =>
        right
        have hblock := realloc_some hrealloc (by omega)
        refine ⟨buf, ?_, hblock.2, by omega, by omega⟩
        have hbufLen : helper.needLen entry * 2 = buf.length := by omega
        simp only [htwice, hrealloc, Option.map_some]
        rw [hbufLen]
  next hroom =>
    right
    cases hbuf : helper.buf with
    | none =>
        have := (hready.fresh hbuf).1
        omega
    | some buf =>
        have hbufLen := (hready.rooted buf hbuf).1
        refine ⟨buf, ?_, List.prefix_refl _, hbufLen.symm, by omega⟩
        rw [← hbuf, ← hbufLen]

/-- The slash is added exactly where the directory has none. -/
theorem putTarget_eq (helper : Helper) {buf : Bytes}
    (hbuf : helper.buf = some buf)
    (hdir : helper.targetDir = args.targetDir)
    (hlen : helper.targetDirLen = args.targetDir.length)
    (htarget : args.targetDir.length < 2 ^ 29)
    (hroom : args.targetDir.length + 1 ≤ buf.length) :
    ∃ after, helper.putTarget = some { helper with
        buf := some after
        targetDirLen := (withSlash args.targetDir).length } ∧
      after.length = buf.length ∧ withSlash args.targetDir <+: after := by
  obtain ⟨copied, hcopied, hcopiedLen, hfront⟩ :=
    memcpy_behind 0 _ _ (List.nil_prefix (l := buf)) rfl hlen (by
      simp only [List.length_nil]
      omega)
  rw [List.nil_append] at hfront
  have hlast : helper.targetDirLen = 0 ∨
      copied[(helper.targetDirLen - 1).toNat]? ≠ some slash ↔
        args.targetDir.getLast? ≠ some slash := by
    rw [hlen, List.getLast?_eq_getElem?]
    cases hdir : args.targetDir.length with
    | zero => simp [List.length_eq_zero_iff.mp hdir]
    | succ n =>
        have hget := (List.prefix_iff_getElem?.mp hfront) n (by omega)
        have hsame : args.targetDir[n]? = copied[n]? := by
          rw [hget, List.getElem?_eq_getElem (by omega)]
        simp [hsame]
        omega
  simp only [Helper.putTarget, hbuf, Option.bind_eq_bind, Option.bind_some,
    hdir, hcopied]
  by_cases hslash : args.targetDir.getLast? = some slash
  · rw [if_neg (by rw [hlast]; exact not_not.mpr hslash)]
    have hsame : withSlash args.targetDir = args.targetDir := if_pos hslash
    rw [hsame]
    exact ⟨copied, by rw [hlen], hcopiedLen, hfront⟩
  · rw [if_pos (hlast.mpr hslash)]
    have hsame : withSlash args.targetDir = args.targetDir ++ [slash] :=
      if_neg hslash
    rw [hsame]
    obtain ⟨after, hafter, hafterLen, hroot⟩ :=
      memcpy_behind _ [slash] 1 hfront hlen rfl (by
        simp only [List.length_singleton]
        omega)
    refine ⟨after, ?_, by omega, hroot⟩
    rw [hafter, Option.bind_some, hlen, toInt_eq (by omega) (by omega)]
    simp

theorem putName_eq (helper : Helper) {buf : Bytes}
    (hbuf : helper.buf = some buf)
    (hzipDirLen : helper.zipDirLen = (canonicalPath args.zipDir).length)
    (hlen : helper.targetDirLen = (withSlash args.targetDir).length)
    (hfits : Fits args entry) (hroot : withSlash args.targetDir <+: buf)
    (hroom : helper.targetDirLen + entry.fileName.length + 1 ≤
      buf.length + helper.zipDirLen) :
    ∃ after, helper.putName entry = some { helper with buf := some after } ∧
      after.length = buf.length ∧ targetPath args entry ++ [0] <+: after := by
  have hname := hfits.name
  have hbelow := hfits.below.length_le
  have hrest : toInt (entry.fileName.length - helper.zipDirLen) =
      (entry.fileName.drop (canonicalPath args.zipDir).length).length := by
    rw [toInt_eq (by omega) (by omega), List.length_drop]
    omega
  obtain ⟨named, hnamed, hnamedLen, hpath⟩ :=
    memcpy_behind _ _ _ hroot hlen hrest (by
      rw [List.length_drop]
      omega)
  obtain ⟨after, hafter, hafterLen, hended⟩ :=
    memcpy_behind (helper.targetDirLen +
        toInt (entry.fileName.length - helper.zipDirLen)) [0] 1 hpath
      (by rw [List.length_append, hlen, hrest, Nat.cast_add]) rfl (by
        rw [List.length_append, List.length_drop, List.length_singleton]
        omega)
  refine ⟨after, ?_, by omega, hended⟩
  have hdrop : helper.zipDirLen.toNat =
      (canonicalPath args.zipDir).length := by
    omega
  simp only [Helper.putName, hbuf, Option.bind_eq_bind, Option.bind_some,
    hdrop, hnamed, hafter]

/-- A call returns the path, or nothing because there is no memory for it;
and the helper is ready for the next call. -/
theorem targetEntryPath_eq (hready : helper.Ready args)
    (hfits : Fits args entry) :
    (targetEntryPath helper entry fresh = some (none, helper) ∧
      fresh = none) ∨
    ∃ buf after, targetEntryPath helper entry fresh = some (some buf, after) ∧
      after.buf = some buf ∧ after.bufLen = buf.length ∧
      after.bufLen = helper.capacity entry ∧
      targetPath args entry ++ [0] <+: buf ∧ after.Ready args := by
  have htarget := hfits.target
  have hbelow := hfits.below.length_le
  have hzipDirLen := hready.zipDirLen
  rw [targetEntryPath]
  rcases @hready.grow_cases _ _ entry fresh hfits with
    ⟨hnull, hfresh⟩ | ⟨buf, hgrow, hkept, hcapacity, hroom⟩
  · left
    rw [hnull]
    exact ⟨rfl, hfresh⟩
  right
  have hrooted : ∃ rooted block,
      Helper.start { helper with buf := some buf, bufLen := buf.length }
        helper.buf.isNone = some rooted ∧
      rooted = { helper with
        buf := some block
        bufLen := block.length
        targetDirLen := (withSlash args.targetDir).length } ∧
      withSlash args.targetDir <+: block ∧ block.length = buf.length := by
    cases hbuf : helper.buf with
    | none =>
        obtain ⟨-, hlen⟩ := hready.fresh hbuf
        obtain ⟨block, hblock, hblockLen, hroot⟩ :=
          putTarget_eq
            { helper with
              buf := some buf
              bufLen := buf.length }
            rfl hready.targetDir hlen htarget (by omega)
        exact ⟨_, block, hblock, by rw [hblockLen], hroot, hblockLen⟩
    | some old =>
        obtain ⟨-, hlen, hroot⟩ := hready.rooted old hbuf
        rw [hbuf, Option.getD_some] at hkept
        exact ⟨_, buf, rfl, by rw [← hlen], hroot.trans hkept, rfl⟩
  obtain ⟨rooted, block, hput, rfl, hroot, hblockLen⟩ := hrooted
  have hslash := hready.withSlash_le
  obtain ⟨after, hname, hafterLen, hpath⟩ :=
    putName_eq
      { helper with
        buf := some block
        bufLen := block.length
        targetDirLen := (withSlash args.targetDir).length }
      rfl hzipDirLen rfl hfits hroot (by dsimp only; omega)
  refine ⟨after,
    { helper with
      buf := some after
      bufLen := block.length
      targetDirLen := (withSlash args.targetDir).length },
    ?_, rfl, by rw [hafterLen], by rw [hblockLen, hcapacity], hpath, ?_⟩
  · simp only [hgrow, hput, hname, Option.bind_eq_bind, Option.bind_some]
  · refine ⟨hready.targetDir, hzipDirLen, nofun, ?_⟩
    intro _ hbuf
    cases hbuf
    exact ⟨by rw [hafterLen], rfl,
      (List.prefix_append _ _).trans
        ((List.prefix_append _ _).trans hpath)⟩

/-- What a call comes to: the buffer has the path and its end, within its
length, unless there was no memory for it. -/
def Answered (args : ExtractArgs) (call : ZipEntry × Fresh)
    (result : Option Bytes × Helper) : Prop :=
  match result.1 with
  | none => call.2 = none
  | some buf => result.2.buf = some buf ∧ result.2.bufLen = buf.length ∧
      targetPath args call.1 ++ [0] <+: buf

theorem calls_answered {list : List (ZipEntry × Fresh)}
    (hready : helper.Ready args) (hfits : ∀ call ∈ list, Fits args call.1) :
    ∃ results, calls helper list = some results ∧
      List.Forall₂ (Answered args) list results := by
  induction list generalizing helper with
  | nil => exact ⟨[], rfl, .nil⟩
  | cons call list ih =>
      obtain ⟨entry, fresh⟩ := call
      have hfirst := hfits _ List.mem_cons_self
      have hothers := fun call hmem => hfits call (List.mem_cons_of_mem _ hmem)
      rcases @targetEntryPath_eq _ _ _ fresh hready hfirst with
        ⟨hcall, hfresh⟩ | ⟨buf, after, hcall, hbuf, hbufLen, -, hpath, hafter⟩
      · obtain ⟨results, hresults, hanswered⟩ := ih hready hothers
        refine ⟨(none, helper) :: results, ?_, .cons hfresh hanswered⟩
        simp [calls, hcall, hresults]
      · obtain ⟨results, hresults, hanswered⟩ := ih hafter hothers
        refine ⟨(some buf, after) :: results, ?_,
          .cons ⟨hbuf, hbufLen, hpath⟩ hanswered⟩
        simp [calls, hcall, hresults]

theorem init_ready (hfits : Fits args entry) :
    (Helper.init args).Ready args := by
  have htarget := hfits.target
  have hname := hfits.name
  have hbelow := hfits.below.length_le
  have hdirLen : toInt args.targetDir.length = args.targetDir.length :=
    toInt_eq (by omega) (by omega)
  have hzipLen : toInt (canonicalPath args.zipDir).length =
      (canonicalPath args.zipDir).length := toInt_eq (by omega) (by omega)
  rw [Helper.init, hdirLen, hzipLen]
  exact ⟨rfl, rfl, fun _ => ⟨rfl, rfl⟩, nofun⟩

/-- The helper as the model of the extraction has it. -/
def Helper.abs (helper : Helper) : MzPathHelper where
  targetDirLen := helper.targetDirLen.toNat
  buf := helper.buf.map (·.take helper.targetDirLen.toNat)
  bufLen := helper.bufLen.toNat

theorem init_abs (hfits : Fits args entry) :
    (Helper.init args).abs = MzPathHelper.init args := by
  have hlen := ((init_ready hfits).fresh rfl).2
  rw [Helper.abs, hlen, Int.toNat_natCast]
  rfl

/-- With memory, a call does what the extraction's own does. -/
theorem targetEntryPath_refines (fresh : Nat → UInt8)
    (hready : helper.Ready args) (hfits : Fits args entry) :
    ∃ buf after, targetEntryPath helper entry (some fresh) =
        some (some buf, after) ∧ after.Ready args ∧
      targetPath args entry ++ [0] <+: buf ∧
      MinZip.targetEntryPath args helper.abs entry = (do
        let granted ←
          if helper.bufLen < helper.needLen entry then
            Prog.perform (Call.allocate (helper.capacity entry))
          else pure true
        if granted then pure (some (targetPath args entry, after.abs))
        else pure none) := by
  have hneed := hready.needLen_eq hfits
  have hlen := hready.targetDirLen_le
  have hzipDirLen := hready.zipDirLen
  have hbelow := hfits.below.length_le
  have hroot : helper.abs.buf.getD (withSlash args.targetDir) =
      withSlash args.targetDir := by
    rw [Helper.abs]
    cases hbuf : helper.buf with
    | none => rfl
    | some buf =>
        obtain ⟨-, hlen, hroot⟩ := hready.rooted buf hbuf
        rw [Option.map_some, Option.getD_some, hlen, Int.toNat_natCast]
        exact (List.prefix_iff_eq_take.mp hroot).symm
  have hneedLen : helper.abs.targetDirLen + 1 +
      (entry.fileName.length - (canonicalPath args.zipDir).length) + 1 =
        (helper.needLen entry).toNat := by
    have habs : helper.abs.targetDirLen = helper.targetDirLen.toNat := rfl
    omega
  have hgrow : helper.abs.bufLen < (helper.needLen entry).toNat ↔
      helper.bufLen < helper.needLen entry := by
    have habs : helper.abs.bufLen = helper.bufLen.toNat := rfl
    omega
  have hcapacity : (if helper.abs.bufLen < (helper.needLen entry).toNat then
      (helper.needLen entry).toNat * 2 else helper.abs.bufLen) =
        (helper.capacity entry).toNat := by
    rw [Helper.capacity]
    simp only [hgrow]
    split
    · omega
    · rfl
  rcases @targetEntryPath_eq _ _ _ (some fresh) hready hfits with
    ⟨-, hnull⟩ | ⟨buf, after, hcall, hbuf, hbufLen, hafterLen, hpath, hafter⟩
  · cases hnull
  refine ⟨buf, after, hcall, hafter, hpath, ?_⟩
  obtain ⟨-, hdirLen, hafterRoot⟩ := hafter.rooted buf hbuf
  have habs : after.abs = ⟨(withSlash args.targetDir).length,
      some (withSlash args.targetDir), (helper.capacity entry).toNat⟩ := by
    rw [Helper.abs, hbuf, hafterLen, hdirLen, Int.toNat_natCast,
      Option.map_some, ← List.prefix_iff_eq_take.mp hafterRoot]
  have hcast : ((helper.capacity entry).toNat : Int) =
      helper.capacity entry := by omega
  unfold MinZip.targetEntryPath
  dsimp only
  rw [hneedLen, hcapacity, hcast, hroot, habs]
  simp only [hgrow]
  rfl

end Calls

/-- Every call on the helper of `mzExtractRecursive` returns the path of its
entry, unless it is refused memory, and no byte is stored outside of the
buffer. -/
theorem targetEntryPaths (args : ExtractArgs)
    (list : List (ZipEntry × Fresh))
    (hfits : ∀ call ∈ list, Fits args call.1) :
    ∃ results, calls (Helper.init args) list = some results ∧
      List.Forall₂ (Answered args) list results := by
  cases list with
  | nil => exact ⟨[], rfl, .nil⟩
  | cons call list =>
      exact calls_answered (init_ready (hfits call List.mem_cons_self)) hfits

namespace ZipTargetPathWitness

/-- zipDir "d" into "/t", without flags. -/
def args : ExtractArgs := ⟨[100], [47, 116], 0, false, false⟩

/-- An entry "d/" followed by the name. -/
def entry (name : Bytes) : ZipEntry :=
  ⟨[100, 47] ++ name, 0, 0, 0, 0, 0, 0, 0, 0⟩

theorem entry_fits {name : Bytes} (hname : name.length < 2 ^ 16 - 2) :
    Fits args (entry name) := by
  refine ⟨by decide, ?_, List.prefix_append _ _⟩
  rw [entry, List.length_append, List.length_cons, List.length_singleton]
  omega

/-- The second name needs a longer buffer, and the third has it. -/
theorem three_entries :
    ∃ results, calls (Helper.init args)
        [(entry [97], some fun _ => 0),
          (entry [98, 98, 98, 98, 98, 98, 98, 98], some fun _ => 1),
          (entry [], none)] = some results ∧
      List.Forall₂ (Answered args)
        [(entry [97], some fun _ => 0),
          (entry [98, 98, 98, 98, 98, 98, 98, 98], some fun _ => 1),
          (entry [], none)] results := by
  refine targetEntryPaths args _ ?_
  simp only [List.forall_mem_cons]
  exact ⟨entry_fits (by decide), entry_fits (by decide),
    entry_fits (by decide), nofun⟩

end ZipTargetPathWitness

end ZipTargetPath

end MetaOS
