/-
src/bootable/recovery/roots.c: the roots of the recovery's paths, what it
mounts and what it formats.

The kernel shows its table of mounts and its list of partitions as texts.  A
mount, an unmount or an erase may fail.  A scan that stores outside of its
table ends the program without a result.
-/
import MetaOS.MountedVolumes
import MetaOS.MtdPartitions
import MetaOS.Numerals
import MetaOS.ProgramLogic

namespace MetaOS

namespace Roots

open CString MountedVolumes MtdPartitions

inductive Device where
  | gMtdDevice
  | block (path : Bytes)
deriving DecidableEq

inductive Filesystem where
  | gRaw
  | gPackageFile
  | named (name : Bytes)
deriving DecidableEq

/-- The two canonical pointers both point at this string. -/
def Filesystem.text : Filesystem → Bytes
  | gRaw => .ofString "@"
  | gPackageFile => .ofString "@"
  | named name => name

structure RootInfo where
  name : Bytes
  device : Option Device
  /-- If the first one doesn't work. -/
  device2 : Option Bytes
  partitionName : Option Bytes
  mountPoint : Option Bytes
  filesystem : Option Filesystem
deriving DecidableEq

/-- A root on a flash partition. -/
def mtdRoot (name partitionName : String) (mountPoint : Option String)
    (filesystem : Filesystem) : RootInfo :=
  ⟨.ofString name, some .gMtdDevice, none, some (.ofString partitionName),
    mountPoint.map .ofString, some filesystem⟩

def yaffs2 : Bytes := .ofString "yaffs2"

def gRoots : List RootInfo :=
  [mtdRoot "BOOT:" "boot" none .gRaw,
    mtdRoot "CACHE:" "cache" (some "/cache") (.named yaffs2),
    mtdRoot "DATA:" "userdata" (some "/data") (.named yaffs2),
    mtdRoot "MISC:" "misc" none .gRaw,
    ⟨.ofString "PACKAGE:", none, none, none, none, some .gPackageFile⟩,
    mtdRoot "RECOVERY:" "recovery" (some "/") .gRaw,
    ⟨.ofString "SDCARD:", some (.block (.ofString "/dev/block/mmcblk0p1")),
      some (.ofString "/dev/block/mmcblk0"), none,
      some (.ofString "/sdcard"), some (.named (.ofString "vfat"))⟩,
    mtdRoot "SYSTEM:" "system" (some "/system") (.named yaffs2),
    mtdRoot "MBM:" "mbm" none .gRaw,
    ⟨.ofString "TMP:", none, none, none, some (.ofString "/tmp"), none⟩,
    mtdRoot "RECOVERYSYS:" "recoverysys" (some "/system") (.named yaffs2)]

/-- The first colon and what is behind it. -/
def fromColon (path : Bytes) : Bytes := path.dropWhile fun c => c != 58

def getRootInfoForPath (rootPath : Bytes) : Option RootInfo :=
  if fromColon rootPath = [] then none
  else
    let len := rootPath.length - (fromColon rootPath).length + 1
    gRoots.find? fun info => info.name.take len == rootPath.take len

/-- The translated path, if it and its zero fit into `outBufLen` bytes. -/
def translateRootPath (rootPath : Bytes) (outBufLen : Nat) : Option Bytes :=
  if outBufLen < 1 then none
  else
    match getRootInfoForPath rootPath with
    | none => none
    | some info =>
        match info.mountPoint with
        | none => none
        | some mountPoint =>
            let relative := (rootPath.drop info.name.length).dropWhile
              fun c => c == 47
            if outBufLen < mountPoint.length + 1 + relative.length + 1 then
              none
            else if mountPoint.getLast? = some 47 then
              some (mountPoint ++ relative)
            else some (mountPoint ++ 47 :: relative)

inductive Call where
  | readMounts
  | readMtd
  | mkdir (path : Bytes) (mode : Nat)
  | mount (device : Bytes) (mountPoint : Option Bytes) (filesystem : Bytes)
      (readOnly : Bool)
  | umount (mountPoint : Bytes)
  | stat (path : Option Bytes)
  | chmod (path : Option Bytes) (mode : Nat)
  | mtdWritePartition (index : Int)
  | mtdEraseBlocks (index : Int)
  | mtdWriteClose (index : Int)
deriving DecidableEq

@[reducible] def Call.Answer : Call → Type
  | readMounts => Option Bytes
  | readMtd => Option Bytes
  | stat _ => Option Nat
  | _ => Bool

abbrev Program := Prog Call Call.Answer

def ask (c : Call) : Program c.Answer := Prog.perform c

/-- `0` or `-1`. -/
def status (ok : Bool) : Int := if ok then 0 else -1

def internalRootMounted (info : RootInfo) : Program (Option Int) :=
  match info.mountPoint with
  | none => pure (some (-1))
  | some mountPoint => do
      let file ← ask .readMounts
      match scanMountedVolumes file with
      | none => pure none
      | some (ret, volumes) =>
          if ret < 0 then pure (some ret)
          else
            match findMountedVolumeByMountPoint volumes mountPoint with
            | some _ => pure (some 0)
            | none => pure (some (-1))

/-- `-1`, or whether it is mounted. -/
def isRootPathMounted (rootPath : Bytes) : Program (Option Int) :=
  match getRootInfoForPath rootPath with
  | none => pure (some (-1))
  | some info =>
      (internalRootMounted info).andThen fun ret =>
        pure (some (if 0 ≤ ret then 1 else 0))

def devname (index : Int) : Bytes :=
  .ofString "/dev/block/mtdblock" ++ printInt index

/-- `S_IXUSR | S_IXGRP | S_IXOTH` -/
def executable : Nat := 0o111

/-- The root of a mounted volume gets its x bits. -/
def fixPermissions (mountPoint : Option Bytes) : Program Int := do
  match ← ask (.stat mountPoint) with
  | none => pure (-1)
  | some mode =>
      let newMode := mode ||| executable
      if newMode = mode then pure 0
      else
        let ok ← ask (.chmod mountPoint newMode)
        pure (status ok)

/-- Mount for writing, unless only reading is asked for. -/
def mountWritable (device : Bytes) (mountPoint : Option Bytes)
    (filesystem : Bytes) (readOnly : Bool) : Program Bool :=
  if readOnly then pure false
  else ask (.mount device mountPoint filesystem false)

/-- Mount for reading, if it is not mounted yet. -/
def mountReadable (device : Bytes) (mountPoint : Option Bytes)
    (filesystem : Bytes) (mounted : Bool) : Program Bool :=
  if mounted then pure true
  else ask (.mount device mountPoint filesystem true)

def mtdMountPartition (partition : MtdPartition) (mountPoint : Option Bytes)
    (filesystem : Bytes) (readOnly : Bool) : Program Int := do
  let device := devname partition.deviceIndex
  let writable ← mountWritable device mountPoint filesystem readOnly
  let mounted ← mountReadable device mountPoint filesystem writable
  if mounted then fixPermissions mountPoint else pure (-1)

/-- Scan the partitions and look one up. -/
def scanForPartition (table : Table) (name : Bytes) :
    Program (Option (Option MtdPartition × Table)) := do
  let file ← ask .readMtd
  match mtdScanPartitions table file with
  | none => pure none
  | some (_, table) => pure (some (mtdFindPartitionByName table name, table))

def mountBlockDevice (device mountPoint filesystem : Bytes)
    (device2 : Option Bytes) : Program Int := do
  let _ ← ask (.mkdir mountPoint 0o755)
  let mounted ← ask (.mount device (some mountPoint) filesystem false)
  if mounted then pure 0
  else
    match device2 with
    | none => pure (-1)
    | some device2 =>
        let mounted ← ask (.mount device2 (some mountPoint) filesystem false)
        pure (status mounted)

def mountRoot (table : Table) (info : RootInfo) :
    Program (Option (Int × Table)) :=
  match info.device with
  | some .gMtdDevice =>
      match info.partitionName with
      | none => pure (some (-1, table))
      | some name =>
          (scanForPartition table name).andThen fun (found, table) =>
            match found with
            | none => pure (some (-1, table))
            | some partition => do
                let ret ← mtdMountPartition partition info.mountPoint
                  ((info.filesystem.map Filesystem.text).getD []) false
                pure (some (ret, table))
  | some (.block device) =>
      match info.mountPoint, info.filesystem with
      | some mountPoint, some (.named filesystem) => do
          let ret ← mountBlockDevice device mountPoint filesystem info.device2
          pure (some (ret, table))
      | _, _ => pure (some (-1, table))
  | none => pure (some (-1, table))

def ensureRootPathMounted (table : Table) (rootPath : Bytes) :
    Program (Option (Int × Table)) :=
  match getRootInfoForPath rootPath with
  | none => pure (some (-1, table))
  | some info =>
      (internalRootMounted info).andThen fun ret =>
        if 0 ≤ ret then pure (some (0, table)) else mountRoot table info

def unmountMountedVolume (volume : MountedVolume) : Program Int := do
  let ok ← ask (.umount volume.mountPoint)
  pure (status ok)

def ensureUnmounted (mountPoint : Bytes) : Program (Option Int) := do
  let file ← ask .readMounts
  match scanMountedVolumes file with
  | none => pure none
  | some (ret, volumes) =>
      if ret < 0 then pure (some ret)
      else
        match findMountedVolumeByMountPoint volumes mountPoint with
        | none => pure (some 0)
        | some volume => do
            let ret ← unmountMountedVolume volume
            pure (some ret)

def ensureRootPathUnmounted (rootPath : Bytes) : Program (Option Int) :=
  match getRootInfoForPath rootPath with
  | none => pure (some (-1))
  | some info =>
      match info.mountPoint with
      | none => pure (some 0)
      | some mountPoint => ensureUnmounted mountPoint

def getRootMtdPartition (table : Table) (rootPath : Bytes) :
    Program (Option (Option MtdPartition × Table)) :=
  match getRootInfoForPath rootPath with
  | none => pure (some (none, table))
  | some info =>
      match info.device, info.partitionName with
      | some .gMtdDevice, some name => scanForPartition table name
      | _, _ => pure (some (none, table))

/-- Erase all blocks of a partition. -/
def erasePartition (partition : MtdPartition) : Program Int := do
  let opened ← ask (.mtdWritePartition partition.deviceIndex)
  if !opened then pure (-1)
  else
    let erased ← ask (.mtdEraseBlocks partition.deviceIndex)
    let closed ← ask (.mtdWriteClose partition.deviceIndex)
    pure (status (erased && closed))

def formatDevice (table : Table) (info : RootInfo) :
    Program (Option (Int × Table)) :=
  match info.device, info.partitionName with
  | some .gMtdDevice, some name =>
      (scanForPartition table name).andThen fun (found, table) =>
        match found with
        | none => pure (some (-1, table))
        | some partition =>
            if info.filesystem = some .gRaw ∨
                info.filesystem = some (.named yaffs2) then do
              let ret ← erasePartition partition
              pure (some (ret, table))
            else pure (some (-1, table))
  | _, _ => pure (some (-1, table))

def formatRootDevice (table : Table) (root : Bytes) :
    Program (Option (Int × Table)) :=
  if fromColon root ≠ [58] then pure (some (-1, table))
  else
    match getRootInfoForPath root with
    | none => pure (some (-1, table))
    | some info =>
        if info.device = none then pure (some (-1, table))
        else if info.mountPoint ≠ none then
          (ensureRootPathUnmounted root).andThen fun ret =>
            if ret < 0 then pure (some (ret, table))
            else formatDevice table info
        else formatDevice table info

end Roots

end MetaOS
