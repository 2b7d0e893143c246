/-
freecache.c: making room on `/cache` by deleting files that nobody has open.

What matters to the callers is which files can disappear: regular files that
lie directly in one of two directories, and never the saved source.
-/
import MetaOS.FileSystem

namespace MetaOS

namespace ApplyPatch

open FileSystem

/-- `/cache/saved.file` -/
def CACHE_TEMP_SOURCE : Path := ascii "/cache/saved.file"

/-- The free bytes that `statfs` reports, in a `size_t`.  An error counts as
the largest value. -/
def freeBytes : Option (Nat × Nat) → Nat
  | none => 2 ^ 32 - 1
  | some (bsize, bfree) => bsize * bfree % 2 ^ 32

def freeSpaceForFile (filename : Path) : SysProg Nat := do
  let sf ← statfs filename
  pure (freeBytes sf)

/-- The directory with the open files of a process. -/
def fdDir (pid : Bytes) : Path := ascii "/proc/" ++ pid ++ ascii "/fd/"

/-- The names in `/proc` that stand for processes. -/
def isPid (name : Bytes) : Bool := name.all fun c => 48 ≤ c && c ≤ 57

/-- Set a file that is open to `NULL`. -/
def eliminate (link : Path) (files : List (Option Path)) :
    List (Option Path) :=
  if ascii "/cache/" <+: link then
    files.map fun file => if file = some link then none else file
  else files

/-- The open files of one process. -/
def eliminateLinks (dir : Path) :
    List Bytes → List (Option Path) → SysProg (List (Option Path))
  | [], files => pure files
  | fd :: fds, files => do
      match ← readlink (dir ++ fd) with
      | none => eliminateLinks dir fds files
      | some link => eliminateLinks dir fds (eliminate link files)

/-- A process whose directory cannot be opened is passed over. -/
def eliminateProcesses :
    List Bytes → List (Option Path) → SysProg (List (Option Path))
  | [], files => pure files
  | pid :: pids, files => do
      if isPid pid then
        match ← readdir (fdDir pid) with
        | none => eliminateProcesses pids files
        | some fds =>
            let files ← eliminateLinks (fdDir pid) fds files
            eliminateProcesses pids files
      else eliminateProcesses pids files

def eliminateOpenFiles (files : List Path) :
    SysProg (Option (List (Option Path))) := do
  match ← readdir (ascii "/proc") with
  | none => pure none
  | some names =>
      let files ← eliminateProcesses names (files.map some)
      pure (some files)

/-- The directories whose files may be deleted. -/
def expendableDirs : List Path :=
  [ascii "/cache", ascii "/cache/recovery/otatest"]

/-- The regular files among the entries of a directory. -/
def expendableEntries (dir : Path) : List Bytes → SysProg (List Path)
  | [] => pure []
  | name :: names => do
      let path := dir ++ ascii "/" ++ name
      if path = CACHE_TEMP_SOURCE then expendableEntries dir names
      else
        match ← stat path with
        | none => expendableEntries dir names
        | some (_, st) =>
            if st.isReg then
              let rest ← expendableEntries dir names
              pure (path :: rest)
            else expendableEntries dir names

def expendableFiles : List Path → SysProg (List Path)
  | [] => pure []
  | dir :: dirs => do
      match ← readdir dir with
      | none => expendableFiles dirs
      | some names =>
          let first ← expendableEntries dir names
          let rest ← expendableFiles dirs
          pure (first ++ rest)

def findExpendableFiles : SysProg (Option (List (Option Path))) := do
  let names ← expendableFiles expendableDirs
  eliminateOpenFiles names

/-- Delete files until there is enough room. -/
def deleteFiles (bytesNeeded : Nat) :
    List (Option Path) → (freeNow : Nat) → SysProg Nat
  | [], freeNow => pure freeNow
  | name :: names, freeNow => do
      if freeNow < bytesNeeded then
        match name with
        | none => deleteFiles bytesNeeded names freeNow
        | some path =>
            let _ ← unlink path
            let freeNow ← freeSpaceForFile (ascii "/cache")
            deleteFiles bytesNeeded names freeNow
      else pure freeNow

def makeFreeSpaceOnCache (bytesNeeded : Nat) : SysProg Bool := do
  let freeNow ← freeSpaceForFile (ascii "/cache")
  if bytesNeeded ≤ freeNow then pure true
  else
    match ← findExpendableFiles with
    | none => pure false
    | some names =>
        if names = [] then pure false
        else
          let freeNow ← deleteFiles bytesNeeded names freeNow
          pure (decide (bytesNeeded ≤ freeNow))

/-- The file lies directly in one of the directories. -/
def Expendable (path : Path) : Prop :=
  path ≠ CACHE_TEMP_SOURCE ∧
    ∃ dir ∈ expendableDirs, ∃ name : Bytes, (47 : UInt8) ∉ name ∧
      path = dir ++ ascii "/" ++ name

section Specs

variable {board : Board} {inv : World → Prop} {w : World}

theorem safe_freeSpaceForFile (filename : Path) (hinv : inv w) :
    Prog.Safe (sem board) inv (fun _ w' => w' = w)
      (freeSpaceForFile filename) w := by
  refine Prog.Safe.bind
    (safe_readOnly (c := .statfs filename) trivial hinv) ?_
  rintro r w' hinv' ⟨rfl, -⟩
  exact ⟨hinv', rfl⟩

theorem safe_expendableEntries {dir : Path} (hdir : dir ∈ expendableDirs)
    {names : List Bytes} (hnames : ∀ name ∈ names, (47 : UInt8) ∉ name)
    (hinv : inv w) :
    Prog.Safe (sem board) inv
      (fun paths w' => w' = w ∧ ∀ path ∈ paths, Expendable path)
      (expendableEntries dir names) w := by
  induction names with
  | nil => exact ⟨hinv, rfl, by simp⟩
  | cons name names ih =>
      have hrest := ih fun other hmem => hnames other (by simp [hmem])
      rw [expendableEntries]
      by_cases hsaved : dir ++ ascii "/" ++ name = CACHE_TEMP_SOURCE
      · simp only [hsaved, if_true]
        exact hrest
      · simp only [hsaved, if_false]
        refine Prog.Safe.bind
          (safe_readOnly (c := .stat _) trivial hinv) ?_
        rintro r w' - ⟨rfl, -⟩
        cases r with
        | none => exact hrest
        | some answer =>
            by_cases hreg : answer.2.isReg = true
            · simp only [hreg, if_true]
              refine Prog.Safe.bind hrest ?_
              rintro rest w' hinv' ⟨rfl, hpaths⟩
              refine ⟨hinv', rfl, ?_⟩
              intro path hmem
              rcases List.mem_cons.mp hmem with rfl | hmem
              · exact ⟨hsaved, dir, hdir, name, hnames name (by simp), rfl⟩
              · exact hpaths path hmem
            · simp only [hreg]
              exact hrest

theorem safe_expendableFiles {dirs : List Path}
    (hdirs : ∀ dir ∈ dirs, dir ∈ expendableDirs) (hinv : inv w) :
    Prog.Safe (sem board) inv
      (fun paths w' => w' = w ∧ ∀ path ∈ paths, Expendable path)
      (expendableFiles dirs) w := by
  induction dirs with
  | nil => exact ⟨hinv, rfl, by simp⟩
  | cons dir dirs ih =>
      have hrest := ih fun other hmem => hdirs other (by simp [hmem])
      refine Prog.Safe.bind
        (safe_readOnly (c := .readdir dir) trivial hinv) ?_
      rintro r w' - ⟨rfl, -, hlist⟩
      cases r with
      | none => exact hrest
      | some names =>
          refine Prog.Safe.bind (safe_expendableEntries (hdirs dir (by simp))
            (hlist names rfl) hinv) ?_
          rintro first w' - ⟨rfl, hfirst⟩
          refine Prog.Safe.bind hrest ?_
          rintro rest w' hinv' ⟨rfl, hlater⟩
          refine ⟨hinv', rfl, ?_⟩
          intro path hmem
          rcases List.mem_append.mp hmem with hmem | hmem
          · exact hfirst path hmem
          · exact hlater path hmem

theorem mem_of_mem_eliminate {link path : Path}
    {files : List (Option Path)} (hmem : some path ∈ eliminate link files) :
    some path ∈ files := by
  rw [eliminate] at hmem
  split at hmem
  · obtain ⟨file, hfile, heq⟩ := List.mem_map.mp hmem
    split at heq
    · cases heq
    · exact heq ▸ hfile
  · exact hmem

/-- No file is new. -/
abbrev Within (files files' : List (Option Path)) : Prop :=
  ∀ path, some path ∈ files' → some path ∈ files

theorem safe_eliminateLinks {dir : Path} (fds : List Bytes)
    (files : List (Option Path)) (hinv : inv w) :
    Prog.Safe (sem board) inv (fun files' w' => w' = w ∧ Within files files')
      (eliminateLinks dir fds files) w := by
  induction fds generalizing files with
  | nil => exact ⟨hinv, rfl, fun _ hmem => hmem⟩
  | cons fd fds ih =>
      refine Prog.Safe.bind
        (safe_readOnly (c := .readlink (dir ++ fd)) trivial hinv) ?_
      rintro r w' - ⟨rfl, -⟩
      cases r with
      | none => exact ih files
      | some link =>
          refine (ih (eliminate link files)).mono (fun _ h => h) ?_
          rintro files' w'' - ⟨rfl, hwithin⟩
          exact ⟨rfl, fun path hmem =>
            mem_of_mem_eliminate (hwithin path hmem)⟩

theorem safe_eliminateProcesses (pids : List Bytes)
    (files : List (Option Path)) (hinv : inv w) :
    Prog.Safe (sem board) inv (fun files' w' => w' = w ∧ Within files files')
      (eliminateProcesses pids files) w := by
  induction pids generalizing files with
  | nil => exact ⟨hinv, rfl, fun _ hmem => hmem⟩
  | cons pid pids ih =>
      rw [eliminateProcesses]
      by_cases hpid : isPid pid = true
      · simp only [hpid, if_true]
        refine Prog.Safe.bind
          (safe_readOnly (c := .readdir (fdDir pid)) trivial hinv) ?_
        rintro r w' - ⟨rfl, -⟩
        cases r with
        | none => exact ih files
        | some fds =>
            refine Prog.Safe.bind (safe_eliminateLinks fds files hinv) ?_
            rintro files' w' - ⟨rfl, hwithin⟩
            refine (ih files').mono (fun _ h => h) ?_
            rintro files'' w'' - ⟨rfl, hwithin'⟩
            exact ⟨rfl, fun path hmem =>
              hwithin path (hwithin' path hmem)⟩
      · simp only [hpid]
        exact ih files

theorem safe_findExpendableFiles (hinv : inv w) :
    Prog.Safe (sem board) inv
      (fun names w' => w' = w ∧
        ∀ found, names = some found →
          ∀ path, some path ∈ found → Expendable path)
      findExpendableFiles w := by
  refine Prog.Safe.bind (safe_expendableFiles (fun _ hmem => hmem) hinv) ?_
  rintro paths w' hinv' ⟨rfl, hpaths⟩
  refine Prog.Safe.bind
    (safe_readOnly (c := .readdir (ascii "/proc")) trivial hinv') ?_
  rintro r w' hinv'' ⟨rfl, -⟩
  cases r with
  | none => exact ⟨hinv'', rfl, by simp⟩
  | some names =>
      refine Prog.Safe.bind (safe_eliminateProcesses names _ hinv'') ?_
      rintro files w'' hkeep ⟨rfl, hwithin⟩
      refine ⟨hkeep, rfl, ?_⟩
      rintro found hfound path hmem
      cases hfound
      obtain ⟨file, hfile, heq⟩ := List.mem_map.mp (hwithin path hmem)
      cases heq
      exact hpaths path hfile

variable {changed : Path → Prop} {flashed : Bytes → Prop}
  (hexpendable : ∀ path, Expendable path → changed path)

include hexpendable

theorem safe_deleteFiles (bytesNeeded : Nat) {names : List (Option Path)}
    (hnames : ∀ path, some path ∈ names → Expendable path) (freeNow : Nat) :
    Prog.Safe (sem board) (Kept changed flashed w) (fun _ _ => True)
      (deleteFiles bytesNeeded names freeNow) w := by
  suffices hfrom : ∀ w', Kept changed flashed w w' →
      Prog.Safe (sem board) (Kept changed flashed w) (fun _ _ => True)
        (deleteFiles bytesNeeded names freeNow) w' from hfrom w Kept.refl
  induction names generalizing freeNow with
  | nil =>
      intro w' hkept
      exact ⟨hkept, trivial⟩
  | cons name names ih =>
      intro w' hkept
      have hrest := ih fun path hmem => hnames path (by simp [hmem])
      unfold deleteFiles
      by_cases hfull : freeNow < bytesNeeded
      · simp only [hfull, if_true]
        cases name with
        | none => exact hrest freeNow w' hkept
        | some path =>
            have hpath := hexpendable path (hnames path (by simp))
            refine Prog.Safe.bind (safe_perform (c := .unlink path) hkept
              (by rintro _ rfl; exact hpath) (by rintro _ ⟨⟩)) ?_
            rintro r w'' hkept' -
            refine Prog.Safe.bind (safe_freeSpaceForFile _ hkept') ?_
            rintro freeNow w3 hkept'' -
            exact hrest freeNow w3 hkept''
      · simp only [hfull, if_false]
        exact ⟨hkept, trivial⟩

/-- Making room changes nothing but expendable files. -/
theorem safe_makeFreeSpaceOnCache (bytesNeeded : Nat) :
    Prog.Safe (sem board) (Kept changed flashed w) (fun _ _ => True)
      (makeFreeSpaceOnCache bytesNeeded) w := by
  refine Prog.Safe.bind (safe_freeSpaceForFile _ Kept.refl) ?_
  rintro freeNow _ - rfl
  by_cases hroom : bytesNeeded ≤ freeNow
  · simp only [hroom, if_true]
    exact ⟨Kept.refl, trivial⟩
  · simp only [hroom, if_false]
    refine Prog.Safe.bind (safe_findExpendableFiles Kept.refl) ?_
    rintro found w' - ⟨rfl, hfound⟩
    cases found with
    | none => exact ⟨Kept.refl, trivial⟩
    | some names =>
        simp only
        by_cases hempty : names = []
        · simp only [hempty, if_true]
          exact ⟨Kept.refl, trivial⟩
        · simp only [hempty, if_false]
          refine Prog.Safe.bind (safe_deleteFiles hexpendable bytesNeeded
            (hfound names rfl) freeNow) ?_
          rintro _ w'' hkept -
          exact ⟨hkept, trivial⟩

end Specs

end ApplyPatch

end MetaOS
