/-
src/bootable/recovery/mtdutils/mounts.c: the table of the mounted volumes, as
it is scanned from /proc/mounts.

The array has room for a fixed number of volumes and the scan does not count
them; a store behind its end gives nothing.
-/
import Mathlib.Data.List.DropRight
import MetaOS.CString
import MetaOS.LineLoop

namespace MetaOS

namespace MountedVolumes

open CString

structure MountedVolume where
  device : Bytes
  mountPoint : Bytes
  filesystem : Bytes
  flags : Bytes
deriving DecidableEq

/-- The entries that are allocated. -/
def numv : Nat := 32

/-- `sizeof(buf)` -/
def bufSize : Nat := 2048

def skipSpace (text : Bytes) : Bytes := text.dropWhile isSpace

/-- `%<width>s` -/
def scanString (width : Nat) (text : Bytes) : Option (Bytes × Bytes) :=
  let text := skipSpace text
  let found := (text.takeWhile fun c => !isSpace c).take width
  if found = [] then none else some (found, text.drop found.length)

/-- `sscanf(bufp, "%63s %63s %63s %127s", …)` with four matches. -/
def scanVolume (bufp : Bytes) : Option MountedVolume := do
  let (device, text) ← scanString 63 (cstr bufp)
  let (mountPoint, text) ← scanString 63 (skipSpace text)
  let (filesystem, text) ← scanString 63 (skipSpace text)
  let (flags, _) ← scanString 127 (skipSpace text)
  return ⟨device, mountPoint, filesystem, flags⟩

/-- `g_mounts_state.volumes[g_mounts_state.volume_count++]` -/
def addVolume (volumes : List MountedVolume) (volume : MountedVolume) :
    Option (List MountedVolume) :=
  if volumes.length < numv then some (volumes ++ [volume]) else none

def scanLine (volumes : List MountedVolume) (bufp : Bytes) :
    Option (List MountedVolume) :=
  match scanVolume bufp with
  | some volume => addVolume volumes volume
  | none => some volumes

/-- The result and the volumes, from what can be read of `/proc/mounts`. -/
def scanMountedVolumes (file : Option Bytes) :
    Option (Int × List MountedVolume) :=
  match file with
  | none => some (-1, [])
  | some text =>
      (Lines.eachLine 10 scanLine [] (text.take (bufSize - 1))).map (0, ·)

def findMountedVolumeByDevice (volumes : List MountedVolume)
    (device : Bytes) : Option MountedVolume :=
  volumes.find? fun volume => volume.device = device

def findMountedVolumeByMountPoint (volumes : List MountedVolume)
    (mountPoint : Bytes) : Option MountedVolume :=
  volumes.find? fun volume => volume.mountPoint = mountPoint

/-- A field of a line.  Blanks in it are shown as octal numbers. -/
structure Field (width : Nat) (field : Bytes) : Prop where
  ne_nil : field ≠ []
  length_le : field.length ≤ width
  noSpace : ∀ c ∈ field, isSpace c = false
  noZero : (0 : UInt8) ∉ field

structure Shown (volume : MountedVolume) : Prop where
  device : Field 63 volume.device
  mountPoint : Field 63 volume.mountPoint
  filesystem : Field 63 volume.filesystem
  flags : Field 127 volume.flags

/-- The placeholders at the end of a line. -/
def placeholders : Bytes := [32, 48, 32, 48]

/-- `<device> <mount point> <filesystem> <flags> 0 0` -/
def procLine (volume : MountedVolume) : Bytes :=
  volume.device ++ 32 :: (volume.mountPoint ++ 32 ::
    (volume.filesystem ++ 32 :: (volume.flags ++ placeholders)))

def procMounts (volumes : List MountedVolume) : Bytes :=
  volumes.flatMap fun volume => procLine volume ++ [10]

/-- A line that the end of the buffer cuts shows the volume with a part of its
flags. -/
def Cut (found volume : MountedVolume) : Prop :=
  found.device = volume.device ∧ found.mountPoint = volume.mountPoint ∧
    found.filesystem = volume.filesystem ∧ found.flags <+: volume.flags

section Scan

variable {width : Nat} {field text part rest : Bytes}

theorem skipSpace_field (hfield : ∀ c ∈ field, isSpace c = false)
    (hne : field ≠ []) (text : Bytes) :
    skipSpace (field ++ text) = field ++ text := by
  obtain ⟨c, field, rfl⟩ := List.exists_cons_of_ne_nil hne
  rw [skipSpace, List.cons_append, List.dropWhile_cons_of_neg]
  rw [hfield c List.mem_cons_self]
  exact Bool.false_ne_true

theorem skipSpace_blank (text : Bytes) :
    skipSpace (32 :: text) = skipSpace text :=
  List.dropWhile_cons_of_pos rfl

theorem skipSpace_skipSpace (text : Bytes) :
    skipSpace (skipSpace text) = skipSpace text :=
  List.dropWhile_idempotent isSpace text

theorem scanString_skipSpace (width : Nat) (text : Bytes) :
    scanString width (skipSpace text) = scanString width text := by
  unfold scanString
  rw [skipSpace_skipSpace]

theorem takeWhile_field (hfield : ∀ c ∈ field, isSpace c = false) :
    field.takeWhile (fun c => !isSpace c) = field :=
  List.takeWhile_eq_self_iff.mpr fun c hc => by rw [hfield c hc]; rfl

/-- A field with a blank behind it. -/
theorem scanString_field (hfield : Field width field) (text : Bytes) :
    scanString width (field ++ 32 :: text) = some (field, 32 :: text) := by
  have hskip := skipSpace_field hfield.noSpace hfield.ne_nil (32 :: text)
  have hfound : ((field ++ 32 :: text).takeWhile
      fun c => !isSpace c).take width = field := by
    rw [List.takeWhile_append_of_pos fun c hc => by
        rw [hfield.noSpace c hc]; rfl, List.takeWhile_cons_of_neg (by decide),
      List.append_nil, List.take_of_length_le hfield.length_le]
  unfold scanString
  dsimp only
  rw [hskip, hfound, if_neg hfield.ne_nil, List.drop_left]

/-- A field that the text ends in. -/
theorem scanString_last (hfield : Field width field) (hpart : part <+: field)
    (hne : part ≠ []) : scanString width part = some (part, []) := by
  have hspace : ∀ c ∈ part, isSpace c = false :=
    fun c hc => hfield.noSpace c (hpart.subset hc)
  have hskip := skipSpace_field hspace hne []
  rw [List.append_nil] at hskip
  unfold scanString
  dsimp only
  rw [hskip, takeWhile_field hspace, List.take_of_length_le
    (hpart.length_le.trans hfield.length_le), if_neg hne, List.drop_length]

theorem scanString_nil (width : Nat) : scanString width [] = none := by
  simp [scanString, skipSpace]

/-- The beginning of a text that begins with a field: the text goes on behind
the field, or it ends in it. -/
theorem prefix_field (hbegins : part <+: field ++ 32 :: rest) :
    (∃ more, more <+: rest ∧ part = field ++ 32 :: more) ∨
      part <+: field := by
  rcases List.prefix_or_prefix_of_prefix hbegins
    (List.prefix_append field _) with hpart | ⟨more, rfl⟩
  · exact .inr hpart
  · rw [List.prefix_append_right_inj] at hbegins
    cases more with
    | nil => exact .inr (by rw [List.append_nil])
    | cons c more =>
        obtain ⟨rfl, hmore⟩ := List.cons_prefix_cons.mp hbegins
        exact .inl ⟨more, hmore, rfl⟩

variable {volume found : MountedVolume}

theorem noZero_procLine (hshown : Shown volume) :
    (0 : UInt8) ∉ procLine volume := by
  simp only [procLine, placeholders, List.mem_append, List.mem_cons]
  have hdevice := hshown.device.noZero
  have hmountPoint := hshown.mountPoint.noZero
  have hfilesystem := hshown.filesystem.noZero
  have hflags := hshown.flags.noZero
  simp_all

theorem cstr_procLine (hshown : Shown volume) (text : Bytes) :
    cstr (procLine volume ++ text) = procLine volume ++ cstr text := by
  rw [cstr, List.takeWhile_append_of_pos]
  · rfl
  · intro c hc
    exact bne_iff_ne.mpr fun heq => noZero_procLine hshown (heq ▸ hc)

/-- What is behind the blanks at which a field ended. -/
theorem scanString_next (hfield : Field width field) (text : Bytes) :
    scanString width (skipSpace (32 :: (field ++ 32 :: text))) =
      some (field, 32 :: text) := by
  rw [scanString_skipSpace, ← scanString_field hfield text]
  unfold scanString
  rw [skipSpace_blank]

theorem scanVolume_line (hshown : Shown volume) (text : Bytes) :
    scanVolume (procLine volume ++ text) = some volume := by
  unfold scanVolume
  rw [cstr_procLine hshown]
  simp only [procLine, placeholders, List.append_assoc, List.cons_append]
  simp only [scanString_field hshown.device, Option.bind_eq_bind,
    Option.bind_some, scanString_next hshown.mountPoint,
    scanString_next hshown.filesystem, scanString_next hshown.flags]
  rfl

/-- A string at the beginning of a part of a text that begins with a field. -/
theorem scanString_part (hfield : Field width field)
    (hpart : part <+: field ++ 32 :: rest) {word behind : Bytes}
    (hscan : scanString width part = some (word, behind)) :
    (word = field ∧ ∃ more, more <+: rest ∧ behind = 32 :: more) ∨
      (word <+: field ∧ behind = []) := by
  rcases prefix_field hpart with ⟨more, hmore, rfl⟩ | hfirst
  · rw [scanString_field hfield more] at hscan
    cases hscan
    exact .inl ⟨rfl, more, hmore, rfl⟩
  · by_cases hne : part = []
    · rw [hne, scanString_nil] at hscan
      nomatch hscan
    · rw [scanString_last hfield hfirst hne] at hscan
      cases hscan
      exact .inr ⟨hfirst, rfl⟩

/-- The same at a string that has another one behind it. -/
theorem scanString_whole (hfield : Field width field)
    (hpart : part <+: field ++ 32 :: rest) {word behind : Bytes}
    (hscan : scanString width part = some (word, behind)) {width' : Nat}
    {next : Bytes × Bytes}
    (hnext : scanString width' (skipSpace behind) = some next) :
    word = field ∧ ∃ more, more <+: rest ∧
      scanString width' more = some next := by
  rcases scanString_part hfield hpart hscan with
    ⟨hword, more, hmore, rfl⟩ | ⟨-, rfl⟩
  · refine ⟨hword, more, hmore, ?_⟩
    rw [skipSpace_blank, scanString_skipSpace] at hnext
    exact hnext
  · rw [skipSpace, List.dropWhile_nil, scanString_nil] at hnext
    nomatch hnext

theorem scanVolume_part (hshown : Shown volume)
    (hpart : part <+: procLine volume)
    (hscan : scanVolume part = some found) : Cut found volume := by
  have hzero : (0 : UInt8) ∉ part :=
    fun hmem => noZero_procLine hshown (hpart.subset hmem)
  unfold scanVolume at hscan
  rw [cstr_eq_self hzero] at hscan
  obtain ⟨⟨device, text⟩, hdevice, hscan⟩ := Option.bind_eq_some_iff.mp hscan
  obtain ⟨⟨mountPoint, text'⟩, hmount, hscan⟩ :=
    Option.bind_eq_some_iff.mp hscan
  obtain ⟨⟨filesystem, text''⟩, hsystem, hscan⟩ :=
    Option.bind_eq_some_iff.mp hscan
  obtain ⟨⟨flags, last⟩, hflags, hscan⟩ := Option.bind_eq_some_iff.mp hscan
  cases hscan
  obtain ⟨rfl, more, hmore, hmount⟩ :=
    scanString_whole hshown.device hpart hdevice hmount
  obtain ⟨rfl, more', hmore', hsystem⟩ :=
    scanString_whole hshown.mountPoint hmore hmount hsystem
  obtain ⟨rfl, more'', hmore'', hflags⟩ :=
    scanString_whole hshown.filesystem hmore' hsystem hflags
  refine ⟨rfl, rfl, rfl, ?_⟩
  rcases scanString_part hshown.flags hmore'' hflags with
    ⟨rfl, -⟩ | ⟨hbegins, -⟩
  · exact List.prefix_rfl
  · exact hbegins

end Scan

section Table

variable {volumes : List MountedVolume}

theorem newline_not_mem {volume : MountedVolume} (hshown : Shown volume) :
    (10 : UInt8) ∉ procLine volume := by
  have hfield : ∀ {width : Nat} {field : Bytes}, Field width field →
      (10 : UInt8) ∉ field :=
    fun hfield hmem => Bool.false_ne_true (hfield.noSpace 10 hmem).symm
  have hdevice := hfield hshown.device
  have hmountPoint := hfield hshown.mountPoint
  have hfilesystem := hfield hshown.filesystem
  have hflags := hfield hshown.flags
  simp only [procLine, placeholders, List.mem_append, List.mem_cons]
  simp_all

theorem foldlM_addVolume {before : List MountedVolume}
    (hroom : (before ++ volumes).length ≤ numv) :
    volumes.foldlM addVolume before = some (before ++ volumes) := by
  induction volumes generalizing before with
  | nil => rw [List.append_nil]; rfl
  | cons volume volumes ih =>
      have hlt : before.length < numv := by
        rw [List.length_append, List.length_cons] at hroom
        omega
      rw [List.append_cons] at hroom ⊢
      rw [List.foldlM_cons, addVolume, if_pos hlt]
      exact ih hroom

/-- The loop over whole lines. -/
theorem scanLines_whole (hshown : ∀ volume ∈ volumes, Shown volume)
    (hroom : volumes.length ≤ numv) (tail : Bytes) :
    Lines.eachLine 10 scanLine [] (procMounts volumes ++ tail) =
      Lines.eachLine 10 scanLine volumes tail := by
  have hadd := @foldlM_addVolume volumes [] (by rwa [List.nil_append])
  rw [procMounts, @Lines.eachLine_items _ _ _ _ _ _ _ addVolume volumes
    (fun volume hvolume => ⟨procLine volume,
      newline_not_mem (hshown volume hvolume), rfl⟩)
    (fun volume hvolume s text => ?_), hadd]
  · rfl
  · rw [scanLine, List.append_assoc,
      scanVolume_line (hshown volume hvolume)]

/-- The loop at a line that the end of the buffer cuts. -/
theorem exists_scanLines_part {whole : List MountedVolume} {part : Bytes}
    (hshown : ∀ volume ∈ volumes, Shown volume)
    (hroom : volumes.length ≤ numv) (hwhole : whole <+: volumes)
    (hpart : part = [] ∨ ∃ volume, whole ++ [volume] <+: volumes ∧
      part <+: procLine volume ++ [10] ∧ part ≠ procLine volume ++ [10]) :
    ∃ found, Lines.eachLine 10 scanLine whole part = some found ∧
      ∀ v ∈ found, ∃ volume ∈ volumes, Cut v volume := by
  have hcut : ∀ v ∈ whole, ∃ volume ∈ volumes, Cut v volume :=
    fun v hv => ⟨v, hwhole.subset hv, rfl, rfl, rfl, List.prefix_rfl⟩
  by_cases hnil : part = []
  · exact ⟨whole, by rw [hnil, Lines.eachLine], hcut⟩
  · obtain ⟨volume, hnext, hbegins, hne⟩ := hpart.resolve_left hnil
    have hmem : volume ∈ volumes := hnext.subset (by simp)
    have hline := newline_not_mem (hshown volume hmem)
    rw [Lines.eachLine_tail (Lines.not_mem_part hline hbegins hne) hnil,
      scanLine]
    cases hscan : scanVolume part with
    | none => exact ⟨whole, rfl, hcut⟩
    | some v =>
        have hlength := hnext.length_le.trans hroom
        rw [List.length_append, List.length_singleton] at hlength
        have hpart : part <+: procLine volume :=
          (List.prefix_concat_iff.mp hbegins).resolve_left hne
        refine ⟨whole ++ [v], if_pos hlength, fun v' hv' => ?_⟩
        rcases List.mem_append.mp hv' with hold | hnew
        · exact hcut v' hold
        · rw [List.mem_singleton.mp hnew]
          exact ⟨volume, hmem,
            scanVolume_part (hshown volume hmem) hpart hscan⟩

/-- The scan of a file that fits into the buffer. -/
theorem scanMountedVolumes_fits (hshown : ∀ volume ∈ volumes, Shown volume)
    (hroom : volumes.length ≤ numv)
    (hfits : (procMounts volumes).length < bufSize) :
    scanMountedVolumes (some (procMounts volumes)) = some (0, volumes) := by
  have hloop := scanLines_whole hshown hroom []
  rw [List.append_nil, Lines.eachLine] at hloop
  rw [scanMountedVolumes, List.take_of_length_le (by omega), hloop]
  rfl

/-- What is found in the beginning of a file is in the table of the kernel, up
to the flags of a line that the end of the buffer cuts; nothing is missing when
the file fits into the buffer. -/
theorem scan_procMounts (volumes : List MountedVolume)
    (hshown : ∀ volume ∈ volumes, Shown volume)
    (hroom : volumes.length ≤ numv) :
    ∃ found, scanMountedVolumes (some (procMounts volumes)) =
        some (0, found) ∧
      (∀ v ∈ found, ∃ volume ∈ volumes, Cut v volume) ∧
      ((procMounts volumes).length < bufSize → found = volumes) := by
  by_cases hfits : (procMounts volumes).length < bufSize
  · exact ⟨volumes, scanMountedVolumes_fits hshown hroom hfits,
      fun v hv => ⟨v, hv, rfl, rfl, rfl, List.prefix_rfl⟩, fun _ => rfl⟩
  · obtain ⟨whole, part, hwhole, htake, hpart⟩ := Lines.take_items
      (fun volume => procLine volume ++ [10]) volumes (bufSize - 1)
    obtain ⟨found, hscan, hfound⟩ :=
      exists_scanLines_part hshown hroom hwhole hpart
    refine ⟨found, ?_, hfound, fun h => absurd h hfits⟩
    have hloop := scanLines_whole
      (fun volume hvolume => hshown volume (hwhole.subset hvolume))
      (hwhole.length_le.trans hroom) part
    rw [scanMountedVolumes, procMounts, htake, ← procMounts, hloop, hscan]
    rfl

end Table

namespace MountedVolumesWitness

theorem field {width : Nat} {field : Bytes} (hne : field ≠ [])
    (hlength : field.length ≤ width)
    (hall : (field.all fun c => !isSpace c && c != 0) = true) :
    Field width field := by
  have hc : ∀ c ∈ field, isSpace c = false ∧ c ≠ 0 := by
    intro c hc
    have hboth := List.all_eq_true.mp hall c hc
    rwa [Bool.and_eq_true, Bool.not_eq_true', bne_iff_ne] at hboth
  exact ⟨hne, hlength, fun c hmem => (hc c hmem).1,
    fun hmem => (hc 0 hmem).2 rfl⟩

def table : List MountedVolume :=
  [⟨.ofString "rootfs", .ofString "/", .ofString "rootfs", .ofString "rw"⟩,
    ⟨.ofString "/dev/block/mtdblock4", .ofString "/system",
      .ofString "yaffs2", .ofString "rw,noatime,nodiratime"⟩]

theorem table_shown : ∀ volume ∈ table, Shown volume := by
  intro volume hvolume
  rcases List.mem_cons.mp hvolume with rfl | hvolume
  · exact ⟨field (by decide) (by decide) rfl,
      field (by decide) (by decide) rfl, field (by decide) (by decide) rfl,
      field (by decide) (by decide) rfl⟩
  · rw [List.mem_singleton.mp hvolume]
    exact ⟨field (by decide) (by decide) rfl,
      field (by decide) (by decide) rfl, field (by decide) (by decide) rfl,
      field (by decide) (by decide) rfl⟩

theorem table_scanned :
    scanMountedVolumes (some (procMounts table)) = some (0, table) := by
  obtain ⟨found, hscan, -, hfound⟩ :=
    scan_procMounts table table_shown (by decide)
  rw [hscan, hfound (by decide)]

end MountedVolumesWitness

end MountedVolumes

end MetaOS
