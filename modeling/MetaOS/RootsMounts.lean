/-
src/bootable/recovery/roots.c: what is mounted while the recovery mounts,
unmounts and formats its roots.

The assumptions are about the kernel: /proc/mounts can be read and fits into
the buffer of the scan, and nobody else mounts anything.
-/
import MetaOS.Roots

namespace MetaOS

namespace Roots

open CString MountedVolumes MtdPartitions

/-- The mounts, and the partitions that have been erased, each with the mounts
at that time. -/
structure Kernel where
  mounts : List MountedVolume
  erased : List (Int × List MountedVolume)

/-- A table of mounts that a scan finds all of. -/
structure Fits (mounts : List MountedVolume) : Prop where
  shown : ∀ volume ∈ mounts, Shown volume
  room : mounts.length ≤ numv
  size : (procMounts mounts).length < MountedVolumes.bufSize

/-- A call succeeds or fails.  `umount` takes the last volume that has been
mounted there. -/
def sem (mtd : Bytes) (c : Call) (k : Kernel) (r : c.Answer) (k' : Kernel) :
    Prop :=
  match c, r with
  | .readMounts, r => r = some (procMounts k.mounts) ∧ k' = k
  | .readMtd, r => (r = none ∨ r = some mtd) ∧ k' = k
  | .mount device mountPoint filesystem _, r =>
      (r = false ∧ k' = k) ∨
        (r = true ∧ ∃ point flags, mountPoint = some point ∧
          k' = { k with
            mounts := k.mounts ++ [⟨device, point, filesystem, flags⟩] } ∧
          Fits k'.mounts)
  | .umount mountPoint, r =>
      (r = false ∧ k' = k) ∨
        (r = true ∧ ∃ before volume after,
          k.mounts = before ++ volume :: after ∧
            volume.mountPoint = mountPoint ∧
            (∀ v ∈ after, v.mountPoint ≠ mountPoint) ∧
            k' = { k with mounts := before ++ after })
  | .mtdEraseBlocks index, _ =>
      k' = { k with erased := k.erased ++ [(index, k.mounts)] }
  | _, _ => k' = k

/-- The number that a scan finds for a partition. -/
def Indexed (mtd name : Bytes) (index : Int) : Prop :=
  ∃ prior count table p,
    mtdScanPartitions prior (some mtd) = some (count, table) ∧
      mtdFindPartitionByName table name = some p ∧ p.deviceIndex = index

/-- The partition of a root is mounted where the root says. -/
def Placed (mtd : Bytes) (volume : MountedVolume) : Prop :=
  ∀ info ∈ gRoots, ∀ name index, info.partitionName = some name →
    Indexed mtd name index → volume.device = devname index →
      info.mountPoint = some volume.mountPoint

structure Inv (mtd : Bytes) (k : Kernel) : Prop where
  fits : Fits k.mounts
  nodup : (k.mounts.map MountedVolume.mountPoint).Nodup
  placed : ∀ volume ∈ k.mounts, Placed mtd volume
  erased : ∀ e ∈ k.erased, ∀ volume ∈ e.2, volume.device ≠ devname e.1

/-- No volume is mounted where the root says. -/
def Free (info : RootInfo) (k : Kernel) : Prop :=
  ∀ volume ∈ k.mounts, info.mountPoint ≠ some volume.mountPoint

/-- A volume is mounted where the root says. -/
def Mounted (info : RootInfo) (k : Kernel) : Prop :=
  ∃ volume ∈ k.mounts, info.mountPoint = some volume.mountPoint

section Names

theorem devname_injective {i j : Int} (heq : devname i = devname j) :
    i = j := by
  have hprint := List.append_cancel_left heq
  have hi := printInt_decimalInteger i
  have hj := printInt_decimalInteger j
  rw [hprint] at hi
  exact Numeral.unique ⟨[], _, rfl, nofun, hi⟩ ⟨[], _, rfl, nofun, hj⟩

/-- A number belongs to one name. -/
theorem Indexed.name_eq {mtd name name' : Bytes} {index : Int}
    (hindexed : Indexed mtd name index)
    (hindexed' : Indexed mtd name' index) : name = name' := by
  obtain ⟨prior, count, table, p, hscan, hfind, rfl⟩ := hindexed
  obtain ⟨prior', count', table', p', hscan', hfind', hindex⟩ := hindexed'
  obtain ⟨⟨-, hname⟩, i, hi, -⟩ :=
    (findPartition_eq_some_iff table name p).mp hfind
  obtain ⟨⟨-, hname'⟩, j, hj, -⟩ :=
    (findPartition_eq_some_iff table' name' p').mp hfind'
  obtain ⟨hpi, hshared⟩ := shares_of_scans hscan hscan' i p hi
    (by rw [hname]; exact Option.some_ne_none _)
  obtain ⟨hpj, -⟩ := shares_of_scans hscan' hscan' j p' hj
    (by rw [hname']; exact Option.some_ne_none _)
  have hij : j = i := by omega
  rw [hij, hshared] at hj
  rw [Option.some.inj hj, hname'] at hname
  exact (Option.some.inj hname).symm

/-- The devices that are no flash partitions. -/
def blockDevices : List Bytes :=
  [.ofString "/dev/block/mmcblk0p1", .ofString "/dev/block/mmcblk0"]

theorem mem_blockDevices {info : RootInfo} (hinfo : info ∈ gRoots)
    {device : Bytes} (hdevice : info.device = some (.block device)) :
    device ∈ blockDevices ∧
      ∀ device ∈ info.device2, device ∈ blockDevices := by
  have hall : ∀ info ∈ gRoots,
      (∀ device2 ∈ info.device2.toList, device2 ∈ blockDevices) ∧
        (info.device = none ∨ info.device = some .gMtdDevice ∨
          info.device = some (.block (.ofString "/dev/block/mmcblk0p1"))) := by
    decide
  obtain ⟨hdevice2, hsome⟩ := hall info hinfo
  refine ⟨?_, fun device hmem => hdevice2 device (Option.mem_toList.mpr hmem)⟩
  rcases hsome with hnone | hmtd | hblock
  · rw [hnone] at hdevice
    nomatch hdevice
  · rw [hmtd] at hdevice
    nomatch hdevice
  · rw [hblock] at hdevice
    cases hdevice
    exact List.mem_cons_self

theorem blockDevice_ne_devname {device : Bytes}
    (hdevice : device ∈ blockDevices) (index : Int) :
    device ≠ devname index := by
  have hbegins : (devname index).take 13 = Bytes.ofString "/dev/block/mt" := by
    rw [devname, List.take_append_of_le_length (by decide)]
    rfl
  intro heq
  rw [← heq] at hbegins
  revert hbegins
  rcases List.mem_cons.mp hdevice with rfl | hdevice
  · decide
  · rw [List.mem_singleton.mp hdevice]
    decide

/-- Roots on one partition are mounted at one place. -/
theorem mountPoint_eq {info info' : RootInfo} (hinfo : info ∈ gRoots)
    (hinfo' : info' ∈ gRoots) {name : Bytes}
    (hname : info.partitionName = some name)
    (hname' : info'.partitionName = some name) :
    info'.mountPoint = info.mountPoint := by
  have hall : ∀ info ∈ gRoots, ∀ info' ∈ gRoots,
      info.partitionName ≠ none →
        info'.partitionName = info.partitionName →
          info'.mountPoint = info.mountPoint := by decide
  exact hall info hinfo info' hinfo' (by rw [hname]; exact nofun)
    (hname'.trans hname.symm)

end Names

section Steps

variable {mtd : Bytes} {k k' : Kernel}

/-- One more volume, at a place where none is mounted. -/
theorem Inv.mount (hinv : Inv mtd k) {volume : MountedVolume}
    (hfree : ∀ v ∈ k.mounts, v.mountPoint ≠ volume.mountPoint)
    (hplaced : Placed mtd volume) (hfits : Fits (k.mounts ++ [volume])) :
    Inv mtd { k with mounts := k.mounts ++ [volume] } := by
  refine ⟨hfits, ?_, ?_, hinv.erased⟩
  · rw [List.map_append, List.nodup_append]
    refine ⟨hinv.nodup, List.nodup_singleton _, ?_⟩
    intro point hpoint point' hpoint'
    obtain ⟨v, hv, rfl⟩ := List.mem_map.mp hpoint
    rw [List.map_singleton, List.mem_singleton] at hpoint'
    rw [hpoint']
    exact hfree v hv
  · intro v hv
    rcases List.mem_append.mp hv with hv | hv
    · exact hinv.placed v hv
    · rw [List.mem_singleton.mp hv]
      exact hplaced

theorem Fits.sublist {mounts mounts' : List MountedVolume}
    (hfits : Fits mounts) (hsub : mounts'.Sublist mounts) : Fits mounts' := by
  refine ⟨fun v hv => hfits.shown v (hsub.subset hv),
    hsub.length_le.trans hfits.room, lt_of_le_of_lt ?_ hfits.size⟩
  exact (hsub.flatMap _).length_le

theorem Inv.umount (hinv : Inv mtd k) {mounts : List MountedVolume}
    (hsub : mounts.Sublist k.mounts) :
    Inv mtd { k with mounts := mounts } :=
  ⟨hinv.fits.sublist hsub, hinv.nodup.sublist (hsub.map _),
    fun v hv => hinv.placed v (hsub.subset hv), hinv.erased⟩

theorem Inv.erase (hinv : Inv mtd k) {index : Int}
    (hfree : ∀ v ∈ k.mounts, v.device ≠ devname index) :
    Inv mtd { k with erased := k.erased ++ [(index, k.mounts)] } := by
  refine ⟨hinv.fits, hinv.nodup, hinv.placed, fun e he => ?_⟩
  rcases List.mem_append.mp he with he | he
  · exact hinv.erased e he
  · rw [List.mem_singleton.mp he]
    exact hfree

/-- What a mount at a place where none is mounted keeps. -/
structure KeptByMount (mtd : Bytes) (inv : Kernel → Prop) : Prop where
  fits : ∀ {k : Kernel}, inv k → Fits k.mounts
  mount : ∀ {k : Kernel} {volume : MountedVolume}, inv k →
    (∀ v ∈ k.mounts, v.mountPoint ≠ volume.mountPoint) → Placed mtd volume →
      Fits (k.mounts ++ [volume]) →
        inv { k with mounts := k.mounts ++ [volume] }

theorem inv_kept : KeptByMount mtd (Inv mtd) where
  fits := Inv.fits
  mount hinv := hinv.mount

theorem fits_kept : KeptByMount mtd fun k => Fits k.mounts where
  fits := id
  mount _ _ _ hfits := hfits

/-- The calls that leave the kernel as it is. -/
def Quiet : Call → Prop
  | .mount .. | .umount _ | .mtdEraseBlocks _ => False
  | _ => True

theorem sem_quiet {c : Call} {r : c.Answer} (hquiet : Quiet c)
    (hsem : sem mtd c k r k') : k' = k := by
  cases c with
  | readMounts => exact hsem.2
  | readMtd => exact hsem.2
  | mount => exact hquiet.elim
  | umount => exact hquiet.elim
  | mtdEraseBlocks => exact hquiet.elim
  | mkdir => exact hsem
  | stat => exact hsem
  | chmod => exact hsem
  | mtdWritePartition => exact hsem
  | mtdWriteClose => exact hsem

end Steps

open Prog

section Programs

variable {mtd : Bytes} {k : Kernel} {info : RootInfo} {table : Table}
  {inv : Kernel → Prop}

theorem quiet_safe {c : Call} (hquiet : Quiet c) (hinv : inv k) :
    Safe (sem mtd) inv (fun r k' => sem mtd c k r k' ∧ k' = k) (ask c)
      k := by
  refine Safe.perform hinv fun r k' hsem => ?_
  obtain rfl := sem_quiet hquiet hsem
  exact ⟨hinv, hsem, rfl⟩

/-- The scan finds the table of the kernel. -/
theorem scan_kernel (hfits : Fits k.mounts) :
    scanMountedVolumes (some (procMounts k.mounts)) = some (0, k.mounts) :=
  scanMountedVolumes_fits hfits.shown hfits.room hfits.size

theorem find_eq_none {mounts : List MountedVolume} {mountPoint : Bytes} :
    findMountedVolumeByMountPoint mounts mountPoint = none ↔
      ∀ v ∈ mounts, v.mountPoint ≠ mountPoint := by
  simp [findMountedVolumeByMountPoint]

theorem find_eq_some {mounts : List MountedVolume} {mountPoint : Bytes}
    {volume : MountedVolume}
    (hfind : findMountedVolumeByMountPoint mounts mountPoint = some volume) :
    volume ∈ mounts ∧ volume.mountPoint = mountPoint :=
  ⟨List.mem_of_find?_eq_some hfind, by simpa using List.find?_some hfind⟩

/-- Whether a root is mounted is found out without a change. -/
theorem internalRootMounted_safe (info : RootInfo) (hfits : Fits k.mounts)
    (hinv : inv k) :
    Safe (sem mtd) inv (fun r k' => k' = k ∧ ∀ code, r = some code →
      (0 ≤ code → Mounted info k) ∧ (¬ 0 ≤ code → Free info k))
      (internalRootMounted info) k := by
  unfold internalRootMounted
  cases hpoint : info.mountPoint with
  | none =>
      refine ⟨hinv, rfl, fun code hcode => ?_⟩
      cases hcode
      exact ⟨fun h => absurd h (by decide), fun _ v _ => by
        rw [hpoint]; exact nofun⟩
  | some mountPoint =>
      refine (quiet_safe (c := .readMounts) trivial hinv).bind
        fun file k' _ hread => ?_
      obtain ⟨⟨rfl, -⟩, rfl⟩ := hread
      rw [scan_kernel hfits]
      dsimp only
      rw [if_neg (lt_irrefl 0)]
      cases hfind : findMountedVolumeByMountPoint k'.mounts mountPoint with
      | some volume =>
          obtain ⟨hmem, hmount⟩ := find_eq_some hfind
          refine ⟨hinv, rfl, fun code hcode => ?_⟩
          cases hcode
          exact ⟨fun _ => ⟨volume, hmem, by rw [hpoint, hmount]⟩,
            fun h => absurd le_rfl h⟩
      | none =>
          refine ⟨hinv, rfl, fun code hcode => ?_⟩
          cases hcode
          refine ⟨fun h => absurd h (by decide), fun _ v hv => ?_⟩
          rw [hpoint]
          exact fun heq =>
            find_eq_none.mp hfind v hv (Option.some.inj heq).symm

/-- A partition that is found has the number of its name. -/
theorem scanForPartition_safe (table : Table) (name : Bytes)
    (hinv : inv k) :
    Safe (sem mtd) inv (fun r k' => k' = k ∧
      ∀ p table', r = some (some p, table') → Indexed mtd name p.deviceIndex)
      (scanForPartition table name) k := by
  refine (quiet_safe (c := .readMtd) trivial hinv).bind
    fun file k' _ hread => ?_
  obtain ⟨⟨hfile, -⟩, rfl⟩ := hread
  rcases hfile with rfl | rfl
  · refine ⟨hinv, rfl, fun p table' heq => ?_⟩
    obtain ⟨hfind, -⟩ := Prod.mk.inj (Option.some.inj heq)
    obtain ⟨⟨-, hname⟩, i, hi, -⟩ :=
      (findPartition_eq_some_iff _ name p).mp hfind
    rw [getElem?_clear table hi] at hname
    nomatch hname
  · cases hscan : mtdScanPartitions table (some mtd) with
    | none => exact ⟨hinv, rfl, fun p table' heq => nomatch heq⟩
    | some found =>
        obtain ⟨count, scanned⟩ := found
        refine ⟨hinv, rfl, fun p table' heq => ?_⟩
        obtain ⟨hfind, -⟩ := Prod.mk.inj (Option.some.inj heq)
        exact ⟨table, count, scanned, p, hscan, hfind, rfl⟩

theorem fixPermissions_safe (mountPoint : Option Bytes) (hinv : inv k) :
    Safe (sem mtd) inv (fun _ k' => k' = k) (fixPermissions mountPoint)
      k := by
  refine (quiet_safe (c := .stat mountPoint) trivial hinv).bind
    fun mode k' _ hstat => ?_
  obtain ⟨-, rfl⟩ := hstat
  cases mode with
  | none => exact ⟨hinv, rfl⟩
  | some mode =>
      dsimp only
      split
      · exact ⟨hinv, rfl⟩
      · refine (quiet_safe (c := .chmod mountPoint _) trivial hinv).bind
          fun ok k'' _ hchmod => ?_
        obtain ⟨-, rfl⟩ := hchmod
        exact ⟨hinv, rfl⟩

theorem placed_block {device point filesystem flags : Bytes}
    (hdevice : device ∈ blockDevices) :
    Placed mtd ⟨device, point, filesystem, flags⟩ :=
  fun _ _ _ index _ _ heq => absurd heq (blockDevice_ne_devname hdevice index)

theorem placed_partition (hinfo : info ∈ gRoots) {name : Bytes}
    (hname : info.partitionName = some name) {index : Int}
    (hindexed : Indexed mtd name index) {point : Bytes}
    (hpoint : info.mountPoint = some point) (filesystem flags : Bytes) :
    Placed mtd ⟨devname index, point, filesystem, flags⟩ := by
  intro info' hinfo' name' index' hname' hindexed' hdevice
  obtain rfl := devname_injective hdevice
  obtain rfl := hindexed.name_eq hindexed'
  rw [mountPoint_eq hinfo hinfo' hname hname', hpoint]

theorem getRootInfoForPath_mem {path : Bytes}
    (hinfo : getRootInfoForPath path = some info) : info ∈ gRoots := by
  unfold getRootInfoForPath at hinfo
  split at hinfo
  · nomatch hinfo
  · exact List.mem_of_find?_eq_some hinfo

section Mounting

variable (hkept : KeptByMount mtd inv)

include hkept

/-- A mount at a free place. -/
theorem mount_safe {device filesystem : Bytes} (readOnly : Bool)
    (hplaced : ∀ point flags, info.mountPoint = some point →
      Placed mtd ⟨device, point, filesystem, flags⟩)
    (hinv : inv k) (hfree : Free info k) :
    Safe (sem mtd) inv
      (fun r k' => (r = false ∧ k' = k) ∨ (r = true ∧ Mounted info k'))
      (ask (.mount device info.mountPoint filesystem readOnly)) k := by
  refine Safe.perform hinv fun r k' hsem => ?_
  rcases hsem with ⟨hr, rfl⟩ | ⟨hr, point, flags, hpoint, rfl, hfits⟩
  · exact ⟨hinv, .inl ⟨hr, rfl⟩⟩
  · refine ⟨hkept.mount hinv (fun v hv heq => hfree v hv ?_)
      (hplaced point flags hpoint) hfits, .inr ⟨hr, _,
        List.mem_append_right _ List.mem_cons_self, hpoint⟩⟩
    rw [hpoint, heq]

/-- A partition is mounted read-only when it cannot be written. -/
theorem mtdMountPartition_safe {p : MtdPartition} {filesystem : Bytes}
    (hplaced : ∀ point flags, info.mountPoint = some point →
      Placed mtd ⟨devname p.deviceIndex, point, filesystem, flags⟩)
    (hinv : inv k) (hfree : Free info k) :
    Safe (sem mtd) inv (fun code k' => 0 ≤ code → Mounted info k')
      (mtdMountPartition p info.mountPoint filesystem false) k := by
  refine (mount_safe hkept false hplaced hinv hfree).bind
    fun writable k' hinv' hwritable => ?_
  have hagain : Safe (sem mtd) inv
      (fun mounted k' => mounted = true → Mounted info k')
      (mountReadable (devname p.deviceIndex) info.mountPoint filesystem
        writable) k' := by
    rcases hwritable with ⟨rfl, rfl⟩ | ⟨rfl, hmounted⟩
    · refine (mount_safe hkept true hplaced hinv hfree).mono (fun _ h => h)
        fun mounted k'' _ hmounted htrue => ?_
      rcases hmounted with ⟨rfl, -⟩ | ⟨-, hmounted⟩
      · nomatch htrue
      · exact hmounted
    · exact ⟨hinv', fun _ => hmounted⟩
  refine hagain.bind fun mounted k'' hinv'' hmounted => ?_
  cases mounted with
  | false => exact ⟨hinv'', fun h => absurd h (by decide)⟩
  | true =>
      refine (fixPermissions_safe info.mountPoint hinv'').mono (fun _ h => h)
        fun code k₃ _ hsame _ => ?_
      rw [hsame]
      exact hmounted rfl

theorem mountBlockDevice_safe {device mountPoint filesystem : Bytes}
    {device2 : Option Bytes} (hpoint : info.mountPoint = some mountPoint)
    (hdevice : device ∈ blockDevices)
    (hdevice2 : ∀ device ∈ device2, device ∈ blockDevices)
    (hinv : inv k) (hfree : Free info k) :
    Safe (sem mtd) inv (fun code k' => 0 ≤ code → Mounted info k')
      (mountBlockDevice device mountPoint filesystem device2) k := by
  refine (quiet_safe (c := .mkdir mountPoint 0o755) trivial hinv).bind
    fun _ k' _ hmkdir => ?_
  obtain ⟨-, rfl⟩ := hmkdir
  rw [← hpoint]
  refine (mount_safe hkept false (fun _ _ _ => placed_block hdevice) hinv
    hfree).bind fun mounted k'' hinv' hmounted => ?_
  rcases hmounted with ⟨rfl, rfl⟩ | ⟨rfl, hmounted⟩
  · cases device2 with
    | none => exact ⟨hinv, fun h => absurd h (by decide)⟩
    | some device2 =>
        refine (mount_safe hkept false
          (fun _ _ _ => placed_block (hdevice2 device2 rfl)) hinv hfree).bind
            fun mounted k₃ hinv₃ hmounted => ?_
        rcases hmounted with ⟨rfl, -⟩ | ⟨-, hmounted⟩
        · exact ⟨hinv₃, fun h => absurd h (by decide)⟩
        · exact ⟨hinv₃, fun _ => hmounted⟩
  · exact ⟨hinv', fun _ => hmounted⟩

theorem mountRoot_safe (hinfo : info ∈ gRoots) (table : Table)
    (hinv : inv k) (hfree : Free info k) :
    Safe (sem mtd) inv
      (fun r k' => ∀ code table', r = some (code, table') → 0 ≤ code →
        Mounted info k') (mountRoot table info) k := by
  have hfails : ∀ {k' : Kernel} (table : Table), inv k' →
      Safe (sem mtd) inv (fun r k' => ∀ code table',
        r = some (code, table') → 0 ≤ code → Mounted info k')
        (pure (some (-1, table)) : Program (Option (Int × Table))) k' := by
    refine fun table hinv => ⟨hinv, fun code table' heq hcode => ?_⟩
    cases heq
    exact absurd hcode (by decide)
  unfold mountRoot
  split
  next hdevice =>
    split
    next => exact hfails table hinv
    next name hname =>
      unfold andThen
      refine (scanForPartition_safe table name hinv).bind
        fun r k' _ hscan => ?_
      obtain ⟨rfl, hfound⟩ := hscan
      cases r with
      | none => exact ⟨hinv, fun _ _ heq => nomatch heq⟩
      | some found =>
          obtain ⟨found, table'⟩ := found
          cases found with
          | none => exact hfails table' hinv
          | some p =>
              refine (mtdMountPartition_safe hkept (fun point flags hpoint =>
                placed_partition hinfo hname (hfound p table' rfl) hpoint _
                  flags) hinv hfree).bind fun code k'' hinv' hcode => ?_
              refine ⟨hinv', fun code' table'' heq hle => ?_⟩
              cases heq
              exact hcode hle
  next device hdevice =>
    obtain ⟨hblock, hblock2⟩ := mem_blockDevices hinfo hdevice
    split
    next mountPoint filesystem hpoint hfilesystem =>
      refine (mountBlockDevice_safe hkept hpoint hblock hblock2 hinv
        hfree).bind fun code k' hinv' hcode =>
          ⟨hinv', fun code' table' heq hle => ?_⟩
      cases heq
      exact hcode hle
    next => exact hfails table hinv
  next => exact hfails table hinv

theorem ensureRootPathMounted_safe (table : Table) (path : Bytes)
    (hinv : inv k) :
    Safe (sem mtd) inv
      (fun r k' => ∀ code table', r = some (code, table') → 0 ≤ code →
        ∃ info, getRootInfoForPath path = some info ∧ Mounted info k')
      (ensureRootPathMounted table path) k := by
  unfold ensureRootPathMounted
  cases hinfo : getRootInfoForPath path with
  | none =>
      refine ⟨hinv, fun code table' heq hcode => ?_⟩
      cases heq
      exact absurd hcode (by decide)
  | some info =>
      dsimp only
      unfold andThen
      refine (internalRootMounted_safe info (hkept.fits hinv) hinv).bind
        fun r k' _ hr => ?_
      obtain ⟨rfl, hr⟩ := hr
      cases r with
      | none => exact ⟨hinv, fun _ _ heq => nomatch heq⟩
      | some code =>
          dsimp only
          split
          next hle =>
            exact ⟨hinv, fun _ _ _ _ => ⟨info, rfl, (hr code rfl).1 hle⟩⟩
          next hlt =>
            exact (mountRoot_safe hkept (getRootInfoForPath_mem hinfo) table
              hinv ((hr code rfl).2 hlt)).mono (fun _ h => h)
                fun r k' _ hmounted code table' heq hle =>
                  ⟨info, rfl, hmounted code table' heq hle⟩

end Mounting

theorem ensureUnmounted_safe {mountPoint : Bytes} (hinv : Inv mtd k) :
    Safe (sem mtd) (Inv mtd) (fun r k' => ∀ code, r = some code →
      ¬ code < 0 → ∀ v ∈ k'.mounts, v.mountPoint ≠ mountPoint)
      (ensureUnmounted mountPoint) k := by
  refine (quiet_safe (c := .readMounts) trivial hinv).bind
    fun file k' _ hread => ?_
  obtain ⟨⟨rfl, -⟩, rfl⟩ := hread
  rw [scan_kernel hinv.fits]
  dsimp only
  rw [if_neg (lt_irrefl 0)]
  cases hfind : findMountedVolumeByMountPoint k'.mounts mountPoint with
  | none => exact ⟨hinv, fun _ _ _ => find_eq_none.mp hfind⟩
  | some volume =>
      obtain ⟨-, rfl⟩ := find_eq_some hfind
      have hunmount : Safe (sem mtd) (Inv mtd) (fun r k'' => r = true →
          ∀ v ∈ k''.mounts, v.mountPoint ≠ volume.mountPoint)
          (ask (.umount volume.mountPoint)) k' := by
        refine Safe.perform hinv fun r k'' hsem => ?_
        rcases hsem with ⟨rfl, rfl⟩ |
          ⟨rfl, before, v, after, hmounts, hpoint, -, rfl⟩
        · exact ⟨hinv, fun h => nomatch h⟩
        · have hsub : (before ++ after).Sublist k'.mounts := by
            rw [hmounts]
            exact (List.sublist_cons_self _ _).append_left before
          refine ⟨hinv.umount hsub, fun _ u hu heq => ?_⟩
          -- No other volume is mounted at the place of the one taken.
          have hnodup := hinv.nodup
          rw [hmounts, List.map_append, List.map_cons,
            List.nodup_middle, List.nodup_cons, ← List.map_append] at hnodup
          exact hnodup.1 (List.mem_map.mpr ⟨u, hu, heq.trans hpoint.symm⟩)
      refine hunmount.bind fun ok k'' hinv' hok => ?_
      refine ⟨hinv', fun code heq hcode => hok ?_⟩
      cases heq
      cases ok with
      | true => rfl
      | false => exact absurd (by decide) hcode

theorem ensureRootPathUnmounted_safe {path : Bytes}
    (hinfo : getRootInfoForPath path = some info) (hinv : Inv mtd k) :
    Safe (sem mtd) (Inv mtd)
      (fun r k' => ∀ code, r = some code → ¬ code < 0 → Free info k')
      (ensureRootPathUnmounted path) k := by
  unfold ensureRootPathUnmounted
  rw [hinfo]
  dsimp only
  cases hpoint : info.mountPoint with
  | none =>
      exact ⟨hinv, fun _ _ _ v _ => by rw [hpoint]; exact nofun⟩
  | some mountPoint =>
      refine (ensureUnmounted_safe hinv).mono (fun _ h => h)
        fun r k' _ hr code heq hcode v hv hsame => ?_
      rw [hpoint] at hsame
      exact hr code heq hcode v hv (Option.some.inj hsame).symm

/-- A partition is erased only while it is not mounted. -/
theorem erasePartition_safe {p : MtdPartition} (hinv : Inv mtd k)
    (hfree : ∀ v ∈ k.mounts, v.device ≠ devname p.deviceIndex) :
    Safe (sem mtd) (Inv mtd) (fun _ _ => True) (erasePartition p) k := by
  refine (quiet_safe (c := .mtdWritePartition _) trivial hinv).bind
    fun (opened : Bool) k' _ hopen => ?_
  obtain ⟨-, rfl⟩ := hopen
  cases opened with
  | false => exact ⟨hinv, trivial⟩
  | true =>
      refine ⟨hinv, fun (erased : Bool) k'' hsem => ?_⟩
      cases hsem
      refine (quiet_safe (c := .mtdWriteClose _) trivial
        (hinv.erase hfree)).bind fun closed k₃ hinv' _ => ⟨hinv', trivial⟩

theorem formatDevice_safe (hinfo : info ∈ gRoots) (table : Table)
    (hinv : Inv mtd k) (hfree : Free info k) :
    Safe (sem mtd) (Inv mtd) (fun _ _ => True) (formatDevice table info)
      k := by
  unfold formatDevice
  split
  next name hdevice hname =>
    unfold andThen
    refine (scanForPartition_safe table name hinv).bind fun r k' _ hscan => ?_
    obtain ⟨rfl, hfound⟩ := hscan
    cases r with
    | none => exact ⟨hinv, trivial⟩
    | some found =>
        obtain ⟨found, table'⟩ := found
        cases found with
        | none => exact ⟨hinv, trivial⟩
        | some p =>
            dsimp only
            split
            · refine (erasePartition_safe hinv fun v hv hdev => ?_).bind
                fun _ _ hinv' _ => ⟨hinv', trivial⟩
              exact hfree v hv (hinv.placed v hv info hinfo name _ hname
                (hfound p table' rfl) hdev)
            · exact ⟨hinv, trivial⟩
  next => exact ⟨hinv, trivial⟩

theorem formatRootDevice_safe (table : Table) (root : Bytes)
    (hinv : Inv mtd k) :
    Safe (sem mtd) (Inv mtd) (fun _ _ => True) (formatRootDevice table root)
      k := by
  unfold formatRootDevice
  split
  · exact ⟨hinv, trivial⟩
  · cases hinfo : getRootInfoForPath root with
    | none => exact ⟨hinv, trivial⟩
    | some info =>
        have hmem := getRootInfoForPath_mem hinfo
        dsimp only
        split
        · exact ⟨hinv, trivial⟩
        · split
          next hpoint =>
            unfold andThen
            refine (ensureRootPathUnmounted_safe hinfo hinv).bind
              fun r k' hinv' hr => ?_
            cases r with
            | none => exact ⟨hinv', trivial⟩
            | some code =>
                dsimp only
                split
                · exact ⟨hinv', trivial⟩
                · rename_i hcode
                  exact formatDevice_safe hmem table hinv'
                    (hr code rfl hcode)
          next hpoint =>
            refine formatDevice_safe hmem table hinv fun v _ => ?_
            rw [not_not.mp hpoint]
            exact nofun

theorem isRootPathMounted_safe (path : Bytes) (hinv : Inv mtd k) :
    Safe (sem mtd) (Inv mtd) (fun _ _ => True) (isRootPathMounted path) k := by
  unfold isRootPathMounted
  split
  · exact ⟨hinv, trivial⟩
  next info hinfo =>
    unfold andThen
    refine (internalRootMounted_safe info hinv.fits hinv).bind
      fun r k' hinv' _ => ?_
    cases r with
    | none => exact ⟨hinv', trivial⟩
    | some code => exact ⟨hinv', trivial⟩

theorem getRootMtdPartition_safe (table : Table) (path : Bytes)
    (hinv : Inv mtd k) :
    Safe (sem mtd) (Inv mtd) (fun _ _ => True)
      (getRootMtdPartition table path) k := by
  unfold getRootMtdPartition
  split
  · exact ⟨hinv, trivial⟩
  · split
    · exact (scanForPartition_safe table _ hinv).mono (fun _ h => h)
        fun _ _ _ _ => trivial
    · exact ⟨hinv, trivial⟩

end Programs

/-- What the recovery and its updater ask for. -/
inductive Request where
  | isRootPathMounted (path : Bytes)
  | ensureRootPathMounted (path : Bytes)
  | ensureRootPathUnmounted (path : Bytes)
  | getRootMtdPartition (path : Bytes)
  | formatRootDevice (root : Bytes)

/-- The table of the partitions after a request. -/
def serve (table : Table) : Request → Program (Option Table)
  | .isRootPathMounted path =>
      (Roots.isRootPathMounted path).andThen fun _ => pure (some table)
  | .ensureRootPathMounted path =>
      (Roots.ensureRootPathMounted table path).andThen fun r =>
        pure (some r.2)
  | .ensureRootPathUnmounted path =>
      (Roots.ensureRootPathUnmounted path).andThen fun _ => pure (some table)
  | .getRootMtdPartition path =>
      (Roots.getRootMtdPartition table path).andThen fun r => pure (some r.2)
  | .formatRootDevice root =>
      (Roots.formatRootDevice table root).andThen fun r => pure (some r.2)

def session (table : Table) : List Request → Program (Option Table)
  | [] => pure (some table)
  | request :: requests =>
      (serve table request).andThen fun table => session table requests

section Sessions

variable {mtd : Bytes} {k : Kernel}

theorem andThen_safe {α β : Type} {first : Program (Option α)}
    {next : α → Program (Option β)} {post : Option α → Kernel → Prop}
    (hfirst : Safe (sem mtd) (Inv mtd) post first k)
    (hnext : ∀ value k', Inv mtd k' →
      Safe (sem mtd) (Inv mtd) (fun _ _ => True) (next value) k') :
    Safe (sem mtd) (Inv mtd) (fun _ _ => True) (first.andThen next) k := by
  refine Safe.bind hfirst fun r k' hinv' _ => ?_
  cases r with
  | none => exact ⟨hinv', trivial⟩
  | some value => exact hnext value k' hinv'

theorem serve_safe (table : Table) (request : Request) (hinv : Inv mtd k) :
    Safe (sem mtd) (Inv mtd) (fun _ _ => True) (serve table request) k := by
  have hend : ∀ (table : Table) (k' : Kernel), Inv mtd k' →
      Safe (sem mtd) (Inv mtd) (fun _ _ => True)
        (pure (some table) : Program (Option Table)) k' :=
    fun _ _ hinv' => ⟨hinv', trivial⟩
  cases request with
  | isRootPathMounted path =>
      exact andThen_safe (isRootPathMounted_safe path hinv) fun _ => hend table
  | ensureRootPathMounted path =>
      exact andThen_safe (ensureRootPathMounted_safe inv_kept table path hinv)
        fun r => hend r.2
  | ensureRootPathUnmounted path =>
      cases hinfo : getRootInfoForPath path with
      | none =>
          rw [serve, Roots.ensureRootPathUnmounted, hinfo]
          exact ⟨hinv, trivial⟩
      | some info =>
          exact andThen_safe (ensureRootPathUnmounted_safe hinfo hinv)
            fun _ => hend table
  | getRootMtdPartition path =>
      exact andThen_safe (getRootMtdPartition_safe table path hinv)
        fun r => hend r.2
  | formatRootDevice root =>
      exact andThen_safe (formatRootDevice_safe table root hinv)
        fun r => hend r.2

theorem session_safe (requests : List Request) (table : Table)
    (hinv : Inv mtd k) :
    Safe (sem mtd) (Inv mtd) (fun _ _ => True) (session table requests)
      k := by
  induction requests generalizing table k with
  | nil => exact ⟨hinv, trivial⟩
  | cons request requests ih =>
      exact andThen_safe (serve_safe table request hinv)
        fun table' k' hinv' => ih table' hinv'

/-- Whatever is asked for and wherever it is cut off: no place has two volumes,
and no partition has been erased while it was mounted. -/
theorem session_formats_unmounted (mtd : Bytes) (table : Table)
    (requests : List Request) {k k' : Kernel} {rest : Program (Option Table)}
    (hfits : Fits k.mounts)
    (hnodup : (k.mounts.map MountedVolume.mountPoint).Nodup)
    (hplaced : ∀ volume ∈ k.mounts, Placed mtd volume)
    (herased : k.erased = [])
    (hreach : Reaches (sem mtd) (session table requests, k) (rest, k')) :
    (k'.mounts.map MountedVolume.mountPoint).Nodup ∧
      ∀ e ∈ k'.erased, ∀ volume ∈ e.2, volume.device ≠ devname e.1 := by
  have hinv : Inv mtd k :=
    ⟨hfits, hnodup, hplaced, by rw [herased]; exact nofun⟩
  have hinv' := (session_safe requests table hinv).inv_of_reaches hreach
  exact ⟨hinv'.nodup, hinv'.erased⟩

/-- `path` is inside of the directory. -/
def Below (directory path : Bytes) : Prop :=
  ∃ relative, path = directory ++ 47 :: relative ∨
    (directory.getLast? = some 47 ∧ path = directory ++ relative)

theorem translateRootPath_below {path out : Bytes} {outBufLen : Nat}
    (hout : translateRootPath path outBufLen = some out) :
    ∃ info mountPoint, getRootInfoForPath path = some info ∧
      info.mountPoint = some mountPoint ∧ Below mountPoint out ∧
      out.length < outBufLen := by
  unfold translateRootPath at hout
  split at hout
  · nomatch hout
  · split at hout
    · nomatch hout
    next info hinfo =>
      split at hout
      · nomatch hout
      next mountPoint hpoint =>
        dsimp only at hout
        generalize ((path.drop info.name.length).dropWhile
          fun c => c == 47) = relative at hout
        split_ifs at hout with hsize hslash
        · cases hout
          refine ⟨info, mountPoint, hinfo, hpoint, ⟨relative, .inr
            ⟨hslash, rfl⟩⟩, ?_⟩
          rw [List.length_append]
          omega
        · cases hout
          refine ⟨info, mountPoint, hinfo, hpoint,
            ⟨relative, .inl rfl⟩, ?_⟩
          rw [List.length_append, List.length_cons]
          omega

/-- After a path has been mounted, its translation is in a mounted volume. -/
theorem mounted_translation (mtd : Bytes) (table : Table) (path : Bytes)
    {k k' : Kernel} {table' : Table} {out : Bytes} {outBufLen : Nat}
    (hfits : Fits k.mounts)
    (hreach : Reaches (sem mtd) (ensureRootPathMounted table path, k)
      (.ret (some (0, table')), k'))
    (hout : translateRootPath path outBufLen = some out) :
    ∃ volume ∈ k'.mounts, Below volume.mountPoint out ∧
      out.length < outBufLen := by
  obtain ⟨info, hinfo, volume, hvolume, hmounted⟩ :=
    (ensureRootPathMounted_safe fits_kept table path hfits).post_of_reaches
      hreach 0 table' rfl le_rfl
  obtain ⟨info', mountPoint, hinfo', hpoint, hbelow, hlength⟩ :=
    translateRootPath_below hout
  rw [hinfo] at hinfo'
  obtain rfl := Option.some.inj hinfo'
  rw [hpoint] at hmounted
  obtain rfl := Option.some.inj hmounted
  exact ⟨volume, hvolume, hbelow, hlength⟩

end Sessions

namespace RootsMountsWitness

open MountedVolumesWitness MtdPartitionsWitness

/-- `/proc/mtd` lists the partition `boot`. -/
def mtd : Bytes :=
  procMtd [⟨.ofString "0", .ofString "00280000", .ofString "00020000",
    .ofString "boot"⟩]

/-- Only the file system of the recovery is mounted. -/
def start : Kernel :=
  ⟨[⟨.ofString "rootfs", .ofString "/", .ofString "rootfs",
    .ofString "rw"⟩], []⟩

/-- The card has been mounted. -/
def withCard : Kernel :=
  ⟨start.mounts ++ [⟨.ofString "/dev/block/mmcblk0p1", .ofString "/sdcard",
    .ofString "vfat", .ofString "rw,noatime"⟩], []⟩

theorem rootfs_shown : ∀ volume ∈ start.mounts, Shown volume := by
  intro volume hvolume
  rw [List.mem_singleton.mp hvolume]
  exact ⟨field (by decide) (by decide) rfl, field (by decide) (by decide) rfl,
    field (by decide) (by decide) rfl, field (by decide) (by decide) rfl⟩

theorem start_fits : Fits start.mounts :=
  ⟨rootfs_shown, by decide, by decide⟩

theorem withCard_fits : Fits withCard.mounts := by
  refine ⟨fun volume hvolume => ?_, by decide, by decide⟩
  rcases List.mem_append.mp hvolume with hvolume | hvolume
  · exact rootfs_shown volume hvolume
  · rw [List.mem_singleton.mp hvolume]
    exact ⟨field (by decide) (by decide) rfl,
      field (by decide) (by decide) rfl, field (by decide) (by decide) rfl,
      field (by decide) (by decide) rfl⟩

theorem start_placed : ∀ volume ∈ start.mounts, Placed mtd volume := by
  intro volume hvolume info _ name index _ _ hdevice
  rw [List.mem_singleton.mp hvolume] at hdevice
  have hbegins : (devname index).take 6 = Bytes.ofString "/dev/b" := by
    rw [devname, List.take_append_of_le_length (by decide)]
    rfl
  rw [← hdevice] at hbegins
  exact absurd hbegins (by decide)

/-- The card can be mounted once. -/
def mountCard (device : Bytes) (mountPoint : Option Bytes)
    (filesystem : Bytes) (k : Kernel) : Bool × Kernel :=
  if device = .ofString "/dev/block/mmcblk0p1" ∧
      mountPoint = some (.ofString "/sdcard") ∧
      filesystem = .ofString "vfat" ∧ k.mounts = start.mounts then
    (true, { k with mounts := withCard.mounts })
  else (false, k)

/-- The partitions can be erased. -/
def handler : (c : Call) → Kernel → c.Answer × Kernel
  | .readMounts, k => (some (procMounts k.mounts), k)
  | .readMtd, k => (some mtd, k)
  | .mtdEraseBlocks index, k =>
      (true, { k with erased := k.erased ++ [(index, k.mounts)] })
  | .mount device mountPoint filesystem _, k =>
      mountCard device mountPoint filesystem k
  | .umount _, k => (false, k)
  | .stat _, k => (none, k)
  | .mkdir _ _, k | .chmod _ _, k | .mtdWritePartition _, k
  | .mtdWriteClose _, k => (true, k)

theorem handler_sem (c : Call) (k : Kernel) :
    sem mtd c k (handler c k).1 (handler c k).2 := by
  cases c with
  | readMounts => exact ⟨rfl, rfl⟩
  | readMtd => exact ⟨.inr rfl, rfl⟩
  | umount => exact .inl ⟨rfl, rfl⟩
  | mount device mountPoint filesystem readOnly =>
      change sem mtd (.mount device mountPoint filesystem readOnly) k
        (mountCard device mountPoint filesystem k).1
        (mountCard device mountPoint filesystem k).2
      unfold mountCard
      split
      next hmount =>
        obtain ⟨rfl, rfl, rfl, hmounts⟩ := hmount
        refine .inr ⟨rfl, _, .ofString "rw,noatime", rfl, ?_, withCard_fits⟩
        rw [hmounts]
        rfl
      next => exact .inl ⟨rfl, rfl⟩
  | _ => rfl

/-- The state after the card has been mounted and `boot` has been formatted. -/
def ended : Kernel :=
  ((session empty [.ensureRootPathMounted (.ofString "SDCARD:update.zip"),
    .formatRootDevice (.ofString "BOOT:")]).eval handler start).2

theorem boot_formatted :
    (ended.mounts.map MountedVolume.mountPoint).Nodup ∧
      ∀ e ∈ ended.erased, ∀ volume ∈ e.2, volume.device ≠ devname e.1 :=
  session_formats_unmounted mtd empty _ start_fits (by decide) start_placed rfl
    (reaches_eval handler handler_sem _ _)

example : ended.erased.map Prod.fst = [0] := by
  decide +kernel

/-- The root of the card is mounted. -/
def carded : Option (Int × Table) × Kernel :=
  (ensureRootPathMounted empty (.ofString "SDCARD:update.zip")).eval handler
    start

theorem package_translated :
    ∃ volume ∈ carded.2.mounts,
      Below volume.mountPoint (.ofString "/sdcard/update.zip") ∧
        (Bytes.ofString "/sdcard/update.zip").length < 64 := by
  have hcarded : carded.1 = some (0, empty) := by decide +kernel
  have hreach := reaches_eval handler handler_sem
    (ensureRootPathMounted empty (.ofString "SDCARD:update.zip")) start
  rw [← carded, hcarded] at hreach
  exact mounted_translation mtd empty (.ofString "SDCARD:update.zip")
    start_fits hreach (by decide)

end RootsMountsWitness

end Roots

end MetaOS
