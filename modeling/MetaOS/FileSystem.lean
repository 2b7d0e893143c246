/-
The system calls of `applypatch` and the state they act on.

The state holds the contents of the regular files and of the flash
partitions.  A call either does what it is asked to or fails; a write may
also stop after any number of bytes.  Names that differ stand for different
files.
-/
import MetaOS.Flash

namespace MetaOS

namespace FileSystem

/-- The bytes of a string constant of the source. -/
def ascii (text : String) : Bytes :=
  text.toList.map fun c => UInt8.ofNat c.toNat

/-- A C string without its terminator. -/
abbrev Path := Bytes

/-- The fields of `struct stat` that are read back. -/
structure Stat where
  mode : Nat
  uid : Nat
  gid : Nat
deriving DecidableEq

/-- `S_ISREG` -/
def Stat.isReg (st : Stat) : Bool := st.mode / 0o10000 % 0o20 == 0o10

/-- `chmod` sets the permissions and keeps the type of the file. -/
def Stat.setMode (st : Stat) (mode : Nat) : Stat :=
  { st with mode := st.mode / 0o10000 * 0o10000 + mode % 0o10000 }

structure File where
  data : Bytes
  st : Stat
deriving DecidableEq

/-- The partitions, each with its pattern of faults. -/
structure Board where
  part : Bytes → Mtd.Partition
  flash : (name : Bytes) → Mtd.Flash (part name)

structure World where
  files : Path → Option File
  device : Bytes → Mtd.Device

namespace World

def setFile (w : World) (path : Path) (file : Option File) : World :=
  { w with files := Function.update w.files path file }

def setDevice (w : World) (name : Bytes) (dev : Mtd.Device) : World :=
  { w with device := Function.update w.device name dev }

/-- Change a file that exists. -/
def modify (w : World) (path : Path) (f : File → File) : World :=
  w.setFile path ((w.files path).map f)

/-- The content of a file, empty if there is none. -/
def contents (w : World) (path : Path) : Bytes :=
  ((w.files path).map File.data).getD []

@[simp] theorem setFile_device (w : World) (path : Path)
    (file : Option File) : (w.setFile path file).device = w.device := rfl

@[simp] theorem setDevice_files (w : World) (name : Bytes)
    (dev : Mtd.Device) : (w.setDevice name dev).files = w.files := rfl

@[simp] theorem modify_device (w : World) (path : Path) (f : File → File) :
    (w.modify path f).device = w.device := rfl

@[simp] theorem setFile_files_self (w : World) (path : Path)
    (file : Option File) : (w.setFile path file).files path = file := by
  simp [setFile]

theorem setFile_files_ne (w : World) {path other : Path}
    (file : Option File) (hne : other ≠ path) :
    (w.setFile path file).files other = w.files other := by
  simp [setFile, hne]

@[simp] theorem modify_files_self (w : World) (path : Path)
    (f : File → File) :
    (w.modify path f).files path = (w.files path).map f := by
  simp [modify]

@[simp] theorem setDevice_device_self (w : World) (name : Bytes)
    (dev : Mtd.Device) : (w.setDevice name dev).device name = dev := by
  simp [setDevice]

theorem setDevice_device_ne (w : World) {name other : Bytes}
    (dev : Mtd.Device) (hne : other ≠ name) :
    (w.setDevice name dev).device other = w.device other := by
  simp [setDevice, hne]

@[simp] theorem setDevice_setDevice (w : World) (name : Bytes)
    (dev dev' : Mtd.Device) :
    (w.setDevice name dev).setDevice name dev' = w.setDevice name dev' := by
  simp [setDevice]

theorem setDevice_self (w : World) (name : Bytes) :
    w.setDevice name (w.device name) = w := by
  simp [setDevice]

end World

/-- `uninitialised` and `garbage` stand for what the program reads from a
stack slot or a buffer it never filled; `abort` is an access that ends the
process. -/
inductive Syscall where
  | stat (path : Path)
  | fopen (path : Path)
  | fread (path : Path) (len : Nat)
  | openTrunc (path : Path)
  | write (path : Path) (data : Bytes)
  | fsync (path : Path)
  | close (path : Path)
  | chmod (path : Path) (mode : Nat)
  | chown (path : Path) (uid gid : Nat)
  | unlink (path : Path)
  | rename (old new : Path)
  | statfs (path : Path)
  | readdir (dir : Path)
  | readlink (path : Path)
  | malloc (size : Nat)
  | mtdFind (name : Bytes)
  | mtd (name : Bytes) (c : Mtd.Call)
  | uninitialised
  | garbage (len : Nat)
  | abort

/-- What the code looks at in each answer.  `stat` answers with the size and
the other fields, `statfs` with the size and the number of the free blocks,
`readlink` with the target of a symbolic link. -/
abbrev Answer : Syscall → Type
  | .stat _ => Option (Nat × Stat)
  | .fopen _ => Bool
  | .fread _ _ => Bytes
  | .openTrunc _ => Bool
  | .write _ _ => Int
  | .fsync _ => Bool
  | .close _ => Bool
  | .chmod _ _ => Bool
  | .chown _ _ _ => Bool
  | .unlink _ => Bool
  | .rename _ _ => Bool
  | .statfs _ => Option (Nat × Nat)
  | .readdir _ => Option (List Bytes)
  | .readlink _ => Option Path
  | .malloc _ => Bool
  | .mtdFind _ => Option Mtd.Partition
  | .mtd _ c => Mtd.Answer c
  | .uninitialised => Nat × Stat
  | .garbage _ => Bytes
  | .abort => Empty

abbrev SysProg := Prog Syscall Answer

/-- The answers the system may give, and what each does to the state. -/
def sem (board : Board) : Prog.Semantics Syscall Answer World
  | .stat path, w, r, w' =>
      w' = w ∧ ∀ answer, r = some answer →
        ∃ file, w.files path = some file ∧ answer = (file.data.length, file.st)
  | .fopen path, w, r, w' => w' = w ∧ (r = true → (w.files path).isSome)
  | .fread path len, w, r, w' => w' = w ∧ r <+: (w.contents path).take len
  | .openTrunc path, w, r, w' =>
      r = false ∧ w' = w ∨
        r = true ∧ ∃ st, (∀ file, w.files path = some file → st = file.st) ∧
          w' = w.setFile path (some ⟨[], st⟩)
  | .write path data, w, r, w' =>
      ∃ count ≤ data.length, (r = count ∨ count = 0 ∧ r = -1) ∧
        w' = w.modify path fun file =>
          { file with data := file.data ++ data.take count }
  | .fsync _, w, _, w' => w' = w
  | .close _, w, _, w' => w' = w
  | .chmod path mode, w, r, w' =>
      r = false ∧ w' = w ∨
        r = true ∧ w' = w.modify path fun file =>
          { file with st := file.st.setMode mode }
  | .chown path uid gid, w, r, w' =>
      r = false ∧ w' = w ∨
        r = true ∧ w' = w.modify path fun file =>
          { file with st := { file.st with uid := uid, gid := gid } }
  | .unlink path, w, r, w' =>
      r = false ∧ w' = w ∨ r = true ∧ w' = w.setFile path none
  | .rename old new, w, r, w' =>
      r = false ∧ w' = w ∨
        r = true ∧ ∃ file, w.files old = some file ∧
          w' = (w.setFile old none).setFile new (some file)
  | .statfs _, w, _, w' => w' = w
  | .readdir _, w, r, w' =>
      w' = w ∧ ∀ names, r = some names → ∀ name ∈ names, (47 : UInt8) ∉ name
  | .readlink _, w, _, w' => w' = w
  | .malloc _, w, _, w' => w' = w
  | .mtdFind name, w, r, w' =>
      w' = w ∧ ∀ part, r = some part → name ≠ [] ∧ part = board.part name
  | .mtd name c, w, r, w' =>
      ∃ dev, (board.flash name).answers c (w.device name) r dev ∧
        w' = w.setDevice name dev
  | .uninitialised, w, _, w' => w' = w
  | .garbage len, w, r, w' => w' = w ∧ r.length = len
  | .abort, _, _, _ => False

section Calls

def stat (path : Path) : SysProg (Option (Nat × Stat)) :=
  Prog.perform (Syscall.stat path)

def fopen (path : Path) : SysProg Bool := Prog.perform (Syscall.fopen path)

def fread (path : Path) (len : Nat) : SysProg Bytes :=
  Prog.perform (Syscall.fread path len)

/-- `open(path, O_WRONLY | O_CREAT | O_TRUNC)` -/
def openTrunc (path : Path) : SysProg Bool :=
  Prog.perform (Syscall.openTrunc path)

def write (path : Path) (data : Bytes) : SysProg Int :=
  Prog.perform (Syscall.write path data)

def fsync (path : Path) : SysProg Bool := Prog.perform (Syscall.fsync path)

def close (path : Path) : SysProg Bool := Prog.perform (Syscall.close path)

def chmod (path : Path) (mode : Nat) : SysProg Bool :=
  Prog.perform (Syscall.chmod path mode)

def chown (path : Path) (uid gid : Nat) : SysProg Bool :=
  Prog.perform (Syscall.chown path uid gid)

def unlink (path : Path) : SysProg Bool := Prog.perform (Syscall.unlink path)

def rename (old new : Path) : SysProg Bool :=
  Prog.perform (Syscall.rename old new)

def statfs (path : Path) : SysProg (Option (Nat × Nat)) :=
  Prog.perform (Syscall.statfs path)

def readdir (dir : Path) : SysProg (Option (List Bytes)) :=
  Prog.perform (Syscall.readdir dir)

def readlink (path : Path) : SysProg (Option Path) :=
  Prog.perform (Syscall.readlink path)

def malloc (size : Nat) : SysProg Bool := Prog.perform (Syscall.malloc size)

/-- `mtd_scan_partitions` and `mtd_find_partition_by_name` -/
def mtdFind (name : Bytes) : SysProg (Option Mtd.Partition) :=
  Prog.perform (Syscall.mtdFind name)

/-- Use the open device of a partition. -/
def onFlash {α : Type} (name : Bytes) (prog : Mtd.MtdProg α) : SysProg α :=
  prog.hoist fun c => Prog.perform (Syscall.mtd name c)

def uninitialised : SysProg (Nat × Stat) := Prog.perform Syscall.uninitialised

def garbage (len : Nat) : SysProg Bytes := Prog.perform (Syscall.garbage len)

def crash {α : Type} : SysProg α := Prog.call Syscall.abort Empty.elim

end Calls

/-- The calls that leave the state as it is. -/
def Syscall.ReadOnly : Syscall → Prop
  | .openTrunc _ | .write _ _ | .chmod _ _ | .chown _ _ _ | .unlink _
  | .rename _ _ | .mtd _ _ => False
  | _ => True

theorem eq_of_readOnly {board : Board} {c : Syscall} (hc : c.ReadOnly)
    {w w' : World} {r : Answer c} (happ : sem board c w r w') : w' = w := by
  cases c <;>
    first | exact hc.elim | exact happ | exact happ.1 | exact happ.elim

theorem safe_readOnly {board : Board} {inv : World → Prop} {c : Syscall}
    (hc : c.ReadOnly) {w : World} (hinv : inv w) :
    Prog.Safe (sem board) inv (fun r w' => w' = w ∧ sem board c w r w)
      (Prog.perform c) w := by
  refine Prog.Safe.perform hinv ?_
  intro r w' happ
  have hsame := eq_of_readOnly hc happ
  subst hsame
  exact ⟨hinv, rfl, happ⟩

/-- At most the files in `changed` and the partitions in `flashed` differ. -/
structure Kept (changed : Path → Prop) (flashed : Bytes → Prop)
    (w w' : World) : Prop where
  files : ∀ path, ¬ changed path → w'.files path = w.files path
  blocks : ∀ name, ¬ flashed name →
    (w'.device name).block = (w.device name).block

namespace Kept

variable {changed changed' : Path → Prop} {flashed flashed' : Bytes → Prop}
  {w w' w'' : World}

theorem refl : Kept changed flashed w w :=
  ⟨fun _ _ => rfl, fun _ _ => rfl⟩

theorem trans (hfirst : Kept changed flashed w w')
    (hsecond : Kept changed flashed w' w'') : Kept changed flashed w w'' :=
  ⟨fun path hpath => (hsecond.files path hpath).trans (hfirst.files path hpath),
    fun name hname =>
      (hsecond.blocks name hname).trans (hfirst.blocks name hname)⟩

theorem symm (hkept : Kept changed flashed w w') :
    Kept changed flashed w' w :=
  ⟨fun path hpath => (hkept.files path hpath).symm,
    fun name hname => (hkept.blocks name hname).symm⟩

theorem mono (hkept : Kept changed flashed w w')
    (hfiles : ∀ path, changed path → changed' path)
    (hblocks : ∀ name, flashed name → flashed' name) :
    Kept changed' flashed' w w' :=
  ⟨fun path hpath => hkept.files path fun h => hpath (hfiles path h),
    fun name hname => hkept.blocks name fun h => hname (hblocks name h)⟩

theorem setFile {path : Path} {file : Option File} (hpath : changed path) :
    Kept changed flashed w (w.setFile path file) := by
  refine ⟨fun other hother => ?_, fun _ _ => rfl⟩
  apply World.setFile_files_ne
  rintro rfl
  exact hother hpath

theorem setDevice {name : Bytes} {dev : Mtd.Device} (hname : flashed name) :
    Kept changed flashed w (w.setDevice name dev) := by
  refine ⟨fun _ _ => rfl, fun other hother => ?_⟩
  rw [World.setDevice_device_ne]
  rintro rfl
  exact hother hname

theorem setDevice_of_block {name : Bytes} {dev : Mtd.Device}
    (hblock : dev.block = (w.device name).block) :
    Kept changed flashed w (w.setDevice name dev) := by
  refine ⟨fun _ _ => rfl, fun other _ => ?_⟩
  by_cases hname : other = name
  · subst hname
    rw [World.setDevice_device_self, hblock]
  · rw [World.setDevice_device_ne _ _ hname]

end Kept

/-- No file and no block differs. -/
abbrev Same : World → World → Prop := Kept (fun _ => False) (fun _ => False)

theorem Same.kept {changed : Path → Prop} {flashed : Bytes → Prop}
    {w w' : World} (hsame : Same w w') : Kept changed flashed w w' :=
  hsame.mono (fun _ => False.elim) (fun _ => False.elim)

/-- The files a call may change. -/
def Syscall.Touches : Syscall → Path → Prop
  | .openTrunc path, other | .write path _, other | .chmod path _, other
  | .chown path _ _, other | .unlink path, other => other = path
  | .rename old new, other => other = old ∨ other = new
  | _, _ => False

/-- The partitions a call may change. -/
def Syscall.Flashes : Syscall → Bytes → Prop
  | .mtd name _, other => other = name
  | _, _ => False

theorem kept_of_sem {board : Board} {c : Syscall} {w w' : World}
    {r : Answer c} (happ : sem board c w r w') :
    Kept c.Touches c.Flashes w w' := by
  by_cases hc : c.ReadOnly
  · rw [eq_of_readOnly hc happ]
    exact Kept.refl
  · cases c with
    | openTrunc path =>
        rcases happ with ⟨-, rfl⟩ | ⟨-, st, -, rfl⟩
        · exact Kept.refl
        · exact Kept.setFile rfl
    | write path data =>
        obtain ⟨count, -, -, rfl⟩ := happ
        exact Kept.setFile rfl
    | chmod path mode =>
        rcases happ with ⟨-, rfl⟩ | ⟨-, rfl⟩
        · exact Kept.refl
        · exact Kept.setFile rfl
    | chown path uid gid =>
        rcases happ with ⟨-, rfl⟩ | ⟨-, rfl⟩
        · exact Kept.refl
        · exact Kept.setFile rfl
    | unlink path =>
        rcases happ with ⟨-, rfl⟩ | ⟨-, rfl⟩
        · exact Kept.refl
        · exact Kept.setFile rfl
    | rename old new =>
        rcases happ with ⟨-, rfl⟩ | ⟨-, file, -, rfl⟩
        · exact Kept.refl
        · exact (Kept.setFile (Or.inl rfl)).trans (Kept.setFile (Or.inr rfl))
    | mtd name c =>
        obtain ⟨dev, -, rfl⟩ := happ
        exact Kept.setDevice rfl
    | _ => exact (hc trivial).elim

/-- One call, seen from the state `w` where some part of a run started. -/
theorem safe_perform {board : Board} {changed : Path → Prop}
    {flashed : Bytes → Prop} {c : Syscall} {w w' : World}
    (hkept : Kept changed flashed w w')
    (hfiles : ∀ path, c.Touches path → changed path)
    (hblocks : ∀ name, c.Flashes name → flashed name) :
    Prog.Safe (sem board) (Kept changed flashed w)
      (fun r w'' => sem board c w' r w'') (Prog.perform c) w' := by
  refine Prog.Safe.perform hkept ?_
  intro r after happ
  exact ⟨hkept.trans ((kept_of_sem happ).mono hfiles hblocks), happ⟩

/-- One call, when nothing is asked of the states in between. -/
theorem safe_call {board : Board} (c : Syscall) (w : World) :
    Prog.Safe (sem board) (fun _ => True) (fun r w' => sem board c w r w')
      (Prog.perform c) w :=
  ⟨trivial, fun _ _ happ => ⟨trivial, happ⟩⟩

/-- Sequencing, where each part is described from the state it starts in. -/
theorem safe_bind {sem : Prog.Semantics Syscall Answer World}
    {changed : Path → Prop} {flashed : Bytes → Prop} {α β : Type}
    {prog : SysProg α} {f : α → SysProg β} {post : α → World → Prop}
    {post' : β → World → Prop} {w : World}
    (hfirst : Prog.Safe sem (Kept changed flashed w) post prog w)
    (hnext : ∀ value w', Kept changed flashed w w' → post value w' →
      Prog.Safe sem (Kept changed flashed w') post' (f value) w') :
    Prog.Safe sem (Kept changed flashed w) post' (prog >>= f) w := by
  refine hfirst.bind fun value w' hkept hpost => ?_
  exact (hnext value w' hkept hpost).mono (fun _ hlater => hkept.trans hlater)
    fun _ _ _ h => h

/-- What holds when nothing changes holds when something may. -/
theorem safe_of_same {sem : Prog.Semantics Syscall Answer World}
    {changed : Path → Prop} {flashed : Bytes → Prop} {α : Type}
    {prog : SysProg α} {post : α → World → Prop} {w : World}
    (hsafe : Prog.Safe sem (Same w) post prog w) :
    Prog.Safe sem (Kept changed flashed w)
      (fun value w' => Same w w' ∧ post value w') prog w :=
  hsafe.mono (fun _ hsame => hsame.kept) fun _ _ hsame hpost => ⟨hsame, hpost⟩

/-- An environment in which every call succeeds; `statfs` reports `space`
bytes, and no directory can be listed. -/
def reliable (board : Board) (space : Nat) :
    (c : Syscall) → World → Option (Answer c × World)
  | .stat path, w =>
      some ((w.files path).map fun file => (file.data.length, file.st), w)
  | .fopen path, w => some ((w.files path).isSome, w)
  | .fread path len, w => some ((w.contents path).take len, w)
  | .openTrunc path, w =>
      some (true, w.setFile path
        (some ⟨[], ((w.files path).map File.st).getD ⟨0, 0, 0⟩⟩))
  | .write path data, w =>
      some (data.length, w.modify path fun file =>
        { file with data := file.data ++ data })
  | .fsync _, w => some (true, w)
  | .close _, w => some (true, w)
  | .chmod path mode, w =>
      some (true, w.modify path fun file =>
        { file with st := file.st.setMode mode })
  | .chown path uid gid, w =>
      some (true, w.modify path fun file =>
        { file with st := { file.st with uid := uid, gid := gid } })
  | .unlink path, w => some (true, w.setFile path none)
  | .rename old new, w =>
      (w.files old).map fun file =>
        (true, (w.setFile old none).setFile new (some file))
  | .statfs _, w => some (some (1, space), w)
  | .readdir _, w => some (none, w)
  | .readlink _, w => some (none, w)
  | .malloc _, w => some (true, w)
  | .mtdFind name, w =>
      some (if name = [] then none else some (board.part name), w)
  | .mtd name c, w =>
      let answer := (board.flash name).handler c (w.device name)
      some (answer.1, w.setDevice name answer.2)
  | .uninitialised, w => some ((0, ⟨0, 0, 0⟩), w)
  | .garbage len, w => some (List.replicate len 0, w)
  | .abort, _ => none

theorem reliable_allowed {board : Board} {space : Nat} (c : Syscall)
    (w : World) (r : Answer c) (w' : World)
    (hanswer : reliable board space c w = some (r, w')) :
    sem board c w r w' := by
  cases c with
  | stat path =>
      cases hanswer
      refine ⟨rfl, ?_⟩
      intro answer hsome
      obtain ⟨file, hfile, rfl⟩ := Option.map_eq_some_iff.mp hsome
      exact ⟨file, hfile, rfl⟩
  | fopen path =>
      cases hanswer
      exact ⟨rfl, fun h => h⟩
  | fread path len =>
      cases hanswer
      exact ⟨rfl, List.prefix_rfl⟩
  | openTrunc path =>
      cases hanswer
      refine Or.inr ⟨rfl, _, ?_, rfl⟩
      intro file hfile
      simp [hfile]
  | write path data =>
      cases hanswer
      exact ⟨data.length, le_rfl, Or.inl rfl, by simp⟩
  | chmod path mode =>
      cases hanswer
      exact Or.inr ⟨rfl, rfl⟩
  | chown path uid gid =>
      cases hanswer
      exact Or.inr ⟨rfl, rfl⟩
  | unlink path =>
      cases hanswer
      exact Or.inr ⟨rfl, rfl⟩
  | rename old new =>
      obtain ⟨file, hfile, hpair⟩ := Option.map_eq_some_iff.mp hanswer
      cases hpair
      exact Or.inr ⟨rfl, file, hfile, rfl⟩
  | readdir dir =>
      cases hanswer
      exact ⟨rfl, by simp⟩
  | mtdFind name =>
      cases hanswer
      refine ⟨rfl, ?_⟩
      intro part hpart
      split at hpart
      · cases hpart
      · rename_i hname
        cases hpart
        exact ⟨hname, rfl⟩
  | mtd name c =>
      cases hanswer
      exact ⟨_, Or.inl rfl, rfl⟩
  | garbage len =>
      cases hanswer
      exact ⟨rfl, List.length_replicate⟩
  | abort => cases hanswer
  | _ =>
      cases hanswer
      rfl

end FileSystem

end MetaOS
