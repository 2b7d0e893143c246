/-
src/bootable/recovery/minzip/DirUtil.c: hierarchies of directories that are
created, deleted or given to an owner.

The files form a tree.  A path is looked up name by name from its root, which
is the working directory, and `..` goes back up.  Where a symbolic link stands
before a slash of the path nothing is said of what a call does.  Any call may
fail.
-/
import Mathlib.Data.List.DropRight
import MetaOS.ByteString
import MetaOS.ProgramLogic

namespace MetaOS

namespace DirUtil

open Prog

def PATH_MAX : Nat := 4096

/-- What `lstat` tells apart; a file is also whatever else there may be. -/
inductive Kind where
  | file
  | link
  | dir
deriving DecidableEq

/-- A name that an entry of a directory can have. -/
def IsName (name : Bytes) : Prop :=
  name ≠ [] ∧ name ≠ .ofString "." ∧ name ≠ .ofString ".." ∧ 47 ∉ name

/-- What is at each place; a place is the list of the names that lead to it. -/
structure Tree where
  kind : List Bytes → Option Kind
  root : kind [] = some .dir
  parent : ∀ {place name}, kind (place ++ [name]) ≠ none →
    kind place = some .dir
  named : ∀ {place name}, kind (place ++ [name]) ≠ none → IsName name

/-- One component of a path. -/
def walk (place : List Bytes) (name : Bytes) : List Bytes :=
  if name = [] ∨ name = .ofString "." then place
  else if name = .ofString ".." then place.dropLast
  else place ++ [name]

/-- The place of a path that goes through no link. -/
def resolve (path : Bytes) : List Bytes := (path.splitOn 47).foldl walk []

/-- No link stands before a slash of the path. -/
def Tree.Plain (tree : Tree) (path : Bytes) : Prop :=
  ∀ before, before ++ [47] <+: path → tree.kind (resolve before) ≠ some .link

/-- The path is not empty, and before each slash of it there is a directory. -/
def Tree.Leads (tree : Tree) (path : Bytes) : Prop :=
  path ≠ [] ∧ ∀ before, before ++ [47] <+: path →
    tree.kind (resolve before) = some .dir

/-- There is nothing at the path, or at what it comes to on the way. -/
def Tree.Misses (tree : Tree) (path : Bytes) : Prop :=
  path = [] ∨ ∃ before, before ++ [47] <+: path ++ [47] ∧
    tree.Leads before ∧ tree.kind (resolve before) = none

/-- What `stat` and `errno` say. -/
inductive Stat where
  | found (kind : Kind)
  | ENOENT
  | error

inductive Call where
  | malloc (size : Nat)
  | stat (path : Bytes)
  | mkdir (path : Bytes) (mode : Int)
  | utime (path : Bytes) (timestamp : Int × Int)
  | lstat (path : Bytes)
  | chown (path : Bytes) (uid gid : Int)
  | chmod (path : Bytes) (mode : Int)
  | unlink (path : Bytes)
  | opendir (path : Bytes)
  | readdir
  | closedir
  | rmdir (path : Bytes)

/-- `opendir` gives the names that the stream is going to have; `readdir` tells
whether it fails. -/
def Call.Answer : Call → Type
  | malloc _ | readdir => Bool
  | stat _ => Stat
  | lstat _ => Option Kind
  | opendir _ => Option (List Bytes)
  | mkdir _ _ | utime _ _ | chown _ _ _ | chmod _ _ | unlink _ | closedir
  | rmdir _ => Int

abbrev Program := Prog Call Call.Answer

def ask (c : Call) : Program c.Answer := perform c

inductive DirStatus where
  | DMISSING
  | DDIR
  | DILLEGAL

def getPathDirStatus (path : Bytes) : Program DirStatus := do
  let (st : Stat) ← ask (.stat path)
  match st with
  | .found .dir => pure .DDIR
  | .found _ => pure .DILLEGAL
  | .ENOENT => pure .DMISSING
  | .error => pure .DILLEGAL

/-- The path that is walked up, with a slash at its end; none if it has no
directory component. -/
def cpath (path : Bytes) (stripFileName : Bool) : Option Bytes :=
  if stripFileName then
    let stripped := path.rdropWhile fun c => c != 47
    if stripped.length ≤ 1 then none else some stripped
  else some (path ++ [47])

/-- The levels of a path: what stands before each slash behind a component. -/
def levels (before : Bytes) : Bytes → List Bytes
  | [] => []
  | c :: behind =>
      if c = 47 ∧ before ≠ [] ∧ before.getLast? ≠ some 47 then
        before :: levels (before ++ [c]) behind
      else levels (before ++ [c]) behind

/-- Make each level. -/
def createLevels (mode : Int) (timestamp : Option (Int × Int)) :
    List Bytes → Program Int
  | [] => pure 0
  | level :: levels => do
      match ← getPathDirStatus level with
      | .DILLEGAL => pure (-1)
      | .DDIR => createLevels mode timestamp levels
      | .DMISSING => do
          let (err : Int) ← ask (.mkdir level mode)
          if err ≠ 0 then pure (-1)
          else
            match timestamp with
            | none => createLevels mode timestamp levels
            | some times => do
                let (err : Int) ← ask (.utime level times)
                if err ≠ 0 then pure (-1)
                else createLevels mode timestamp levels

def dirCreateHierarchy (path : Bytes) (mode : Int)
    (timestamp : Option (Int × Int)) (stripFileName : Bool) : Program Int :=
  if path = [] then pure (-1)
  else do
    let (granted : Bool) ← ask (.malloc (path.length + 2))
    if !granted then pure (-1)
    else
      match cpath path stripFileName with
      | none => pure (-1)
      | some cpath => do
          match ← getPathDirStatus cpath with
          | .DDIR => pure 0
          | .DILLEGAL => pure (-1)
          | .DMISSING => createLevels mode timestamp (levels [] cpath)

/-- `snprintf` of a path and a name. -/
def joined (path name : Bytes) : Bytes :=
  (path ++ 47 :: name).take (PATH_MAX - 1)

/-- The loops over the entries of a directory; `true` where one of them is not
done.  `atEnd` is what a failing `readdir` is taken for. -/
def eachEntry (atEnd : Bool) (bad : Int → Bool)
    (entry : Bytes → Program (Option Int)) (path : Bytes) :
    List Bytes → Program (Option Bool)
  | [] => pure (some false)
  | name :: names => do
      let (more : Bool) ← ask .readdir
      if !more then pure (some atEnd)
      else if name = .ofString ".." ∨ name = .ofString "." then
        eachEntry atEnd bad entry path names
      else
        (entry (joined path name)).andThen fun r =>
          if bad r then pure (some true)
          else eachEntry atEnd bad entry path names

/-- A `readdir` that fails looks like the end here: `errno` is compared with 0
for being less, which it never is. -/
def unlinkEntries : (Bytes → Program (Option Int)) → Bytes → List Bytes →
    Program (Option Bool) :=
  eachEntry false fun r => r < 0

/-- No result where the recursion goes deeper than `fuel`. -/
def dirUnlinkHierarchy : Nat → Bytes → Program (Option Int)
  | 0, _ => pure none
  | fuel + 1, path => do
      let (kind : Option Kind) ← ask (.lstat path)
      match kind with
      | none => pure (some (-1))
      | some .dir => do
          let (names : Option (List Bytes)) ← ask (.opendir path)
          match names with
          | none => pure (some (-1))
          | some names =>
              (unlinkEntries (dirUnlinkHierarchy fuel) path names).andThen
                fun fail => do
                  let (closed : Int) ← ask .closedir
                  if fail || closed < 0 then pure (some (-1))
                  else do
                    let (r : Int) ← ask (.rmdir path)
                    pure (some r)
      | some _ => do
          let (r : Int) ← ask (.unlink path)
          pure (some r)

/-- Here it is not taken for the end. -/
def setEntries : (Bytes → Program (Option Int)) → Bytes → List Bytes →
    Program (Option Bool) :=
  eachEntry true fun r => r ≠ 0

/-- The owner, the group and the two modes to set. -/
structure Permissions where
  uid : Int
  gid : Int
  dirMode : Int
  fileMode : Int

/-- Directories and files get different permissions. -/
def Permissions.mode (permissions : Permissions) (kind : Kind) : Int :=
  if kind = .dir then permissions.dirMode else permissions.fileMode

def dirSetHierarchyPermissions (permissions : Permissions) :
    Nat → Bytes → Program (Option Int)
  | 0, _ => pure none
  | fuel + 1, path => do
      let (kind : Option Kind) ← ask (.lstat path)
      match kind with
      | none => pure (some (-1))
      | some .link => pure (some 0)
      | some kind => do
          let (owned : Int) ← ask (.chown path permissions.uid permissions.gid)
          if owned ≠ 0 then pure (some (-1))
          else do
            let (set : Int) ← ask (.chmod path (permissions.mode kind))
            if set ≠ 0 then pure (some (-1))
            else if kind ≠ .dir then pure (some 0)
            else do
              let (names : Option (List Bytes)) ← ask (.opendir path)
              match names with
              | none => pure (some (-1))
              | some names =>
                  (setEntries (dirSetHierarchyPermissions permissions fuel)
                    path names).andThen fun fail => do
                      let (closed : Int) ← ask .closedir
                      if fail || closed ≠ 0 then pure (some (-1))
                      else pure (some 0)

structure Attr where
  uid : Int
  gid : Int
  mode : Int

/-- `failed` only records whether a call has failed, other than to find what is
not there or to remove a directory that is not empty. -/
structure World where
  tree : Tree
  attrs : List Bytes → Attr
  failed : Bool

def World.fail (w : World) : World := { w with failed := true }

/-- What is at a place is given attributes. -/
def World.setAttr (w : World) (place : List Bytes) (attr : Attr) : World :=
  { w with attrs := Function.update w.attrs place attr }

/-- An owner or a group of -1 stays as it is; the mode may lose bits. -/
def Attr.chown (attr : Attr) (uid gid : Int) : Attr :=
  { attr with
    uid := if uid = -1 then attr.uid else uid
    gid := if gid = -1 then attr.gid else gid }

/-- A directory comes where nothing was, and nothing else. -/
def World.Made (w : World) (place : List Bytes) (w' : World) : Prop :=
  w.tree.kind place = none ∧
    w'.tree.kind = Function.update w.tree.kind place (some .dir) ∧
      (∀ other, other ≠ place → w'.attrs other = w.attrs other) ∧
        w'.failed = w.failed

/-- What is at a place goes, and nothing else. -/
def World.Removed (w : World) (place : List Bytes) (w' : World) : Prop :=
  w'.tree.kind = Function.update w.tree.kind place none ∧
    w'.attrs = w.attrs ∧ w'.failed = w.failed

def World.Empty (w : World) (place : List Bytes) : Prop :=
  ∀ name, w.tree.kind (place ++ [name]) = none

/-- The entries of a directory come in any order. -/
def World.Lists (w : World) (place : List Bytes) (names : List Bytes) : Prop :=
  names.Nodup ∧ ∀ name, name ∈ names ↔ name = .ofString "." ∨
    name = .ofString ".." ∨ w.tree.kind (place ++ [name]) ≠ none

/-- `stat` goes on to what a link leads to. -/
def World.Finds (w : World) (path : Bytes) : Stat → Prop
  | .found kind => kind ≠ .link ∧ w.tree.Leads path ∧
      (w.tree.kind (resolve path) = some kind ∨
        w.tree.kind (resolve path) = some .link)
  | .ENOENT => w.tree.Misses path ∨
      (w.tree.Leads path ∧ w.tree.kind (resolve path) = some .link)
  | .error => False

/-- A call fails or, where its path leads to a place, does what it is for. -/
def World.On (w : World) (path : Bytes) (acts fails : Prop) : Prop :=
  w.tree.Plain path → (w.tree.Leads path ∧ acts) ∨ fails

/-- A call that goes on to what a link at the end of its path leads to. -/
def World.Through (w : World) (path : Bytes) (acts fails : Prop) : Prop :=
  w.tree.kind (resolve path) ≠ some .link → w.On path acts fails

def sem : Semantics Call Call.Answer World
  | .malloc _, w, r, w' => (r = true ∧ w' = w) ∨ (r = false ∧ w' = w.fail)
  | .stat path, w, r, w' => w.tree.Plain path →
      (w.Finds path r ∧ w' = w) ∨ (r = Stat.error ∧ w' = w.fail)
  | .mkdir path _, w, r, w' =>
      -- a slash at the end of the path does no harm here
      let level := path.rdropWhile (· == 47)
      w.On level (r = (0 : Int) ∧ w.Made (resolve level) w')
        (r = (-1 : Int) ∧ w' = w.fail)
  | .utime _ _, w, r, w' =>
      (r = (0 : Int) ∧ w' = w) ∨ (r = (-1 : Int) ∧ w' = w.fail)
  | .lstat path, w, r, w' =>
      w.On path (r = w.tree.kind (resolve path) ∧ w' = w)
        (r = none ∧ w' = w.fail)
  | .chown path uid gid, w, r, w' =>
      w.Through path
        (r = (0 : Int) ∧ w.tree.kind (resolve path) ≠ none ∧
          ∃ mode, w' = w.setAttr (resolve path)
            { (w.attrs (resolve path)).chown uid gid with mode := mode })
        (r = (-1 : Int) ∧ w' = w.fail)
  | .chmod path mode, w, r, w' =>
      w.Through path
        (r = (0 : Int) ∧ w.tree.kind (resolve path) ≠ none ∧
          w' = w.setAttr (resolve path)
            { w.attrs (resolve path) with mode := mode })
        (r = (-1 : Int) ∧ w' = w.fail)
  | .unlink path, w, r, w' =>
      w.On path
        (r = (0 : Int) ∧ w.tree.kind (resolve path) ≠ none ∧
          w.tree.kind (resolve path) ≠ some .dir ∧
          w.Removed (resolve path) w')
        (r = (-1 : Int) ∧ w' = w.fail)
  | .opendir path, w, r, w' =>
      w.Through path
        (∃ names, r = some names ∧
          w.tree.kind (resolve path) = some .dir ∧
          w.Lists (resolve path) names ∧ w' = w)
        (r = none ∧ w' = w.fail)
  | .readdir, w, r, w' => (r = true ∧ w' = w) ∨ (r = false ∧ w' = w.fail)
  | .closedir, w, r, w' =>
      (r = (0 : Int) ∧ w' = w) ∨ (r = (-1 : Int) ∧ w' = w.fail)
  | .rmdir path, w, r, w' =>
      w.On path
        ((r = (0 : Int) ∧ w.tree.kind (resolve path) = some .dir ∧
          w.Empty (resolve path) ∧ w.Removed (resolve path) w') ∨
          (r = (-1 : Int) ∧ ¬ w.Empty (resolve path) ∧ w' = w))
        (r = (-1 : Int) ∧ w' = w.fail)

section Paths

variable {tree : Tree} {path : Bytes}

instance : Decidable (tree.Plain path) :=
  decidable_of_iff (∀ before ∈ path.inits, before ++ [47] <+: path →
    tree.kind (resolve before) ≠ some .link) (by
      simp only [List.mem_inits]
      refine ⟨fun h before hbefore => h before ?_ hbefore,
        fun h before _ => h before⟩
      exact (List.prefix_append before [47]).trans hbefore)

instance : Decidable (tree.Leads path) :=
  decidable_of_iff (path ≠ [] ∧ ∀ before ∈ path.inits,
    before ++ [47] <+: path → tree.kind (resolve before) = some .dir) (by
      simp only [List.mem_inits]
      refine and_congr_right fun _ => ?_
      refine ⟨fun h before hbefore => h before ?_ hbefore,
        fun h before _ => h before⟩
      exact (List.prefix_append before [47]).trans hbefore)

instance : Decidable (tree.Misses path) :=
  decidable_of_iff (path = [] ∨ ∃ before ∈ (path ++ [47]).inits,
    before ++ [47] <+: path ++ [47] ∧ tree.Leads before ∧
      tree.kind (resolve before) = none) (by
        simp only [List.mem_inits]
        refine or_congr_right (exists_congr fun before => ?_)
        refine and_iff_right_of_imp fun hbefore => ?_
        exact (List.prefix_append before [47]).trans hbefore.1)

theorem Tree.Plain.upTo {before : Bytes} (hplain : tree.Plain path)
    (hbefore : before <+: path) : tree.Plain before :=
  fun other hother => hplain other (hother.trans hbefore)

/-- A path into what is not a link. -/
theorem Tree.Plain.join {name : Bytes} (hplain : tree.Plain path)
    (hlink : tree.kind (resolve path) ≠ some .link) (hname : 47 ∉ name) :
    tree.Plain (path ++ 47 :: name) := by
  intro before hbefore
  have hpath : path ++ [47] <+: path ++ 47 :: name := by
    rw [List.prefix_append_right_inj]
    exact List.prefix_append [47] name
  rcases List.prefix_or_prefix_of_prefix hbefore hpath with h | h
  · rcases List.prefix_concat_iff.mp h with hsame | hearlier
    · rwa [List.append_cancel_right hsame]
    · exact hplain before hearlier
  · rcases List.prefix_concat_iff.mp h with hsame | hlater
    · rwa [← List.append_cancel_right hsame]
    · obtain ⟨rest, rfl⟩ := hlater
      rw [List.append_assoc, List.append_assoc,
        List.prefix_append_right_inj, List.singleton_append,
        List.cons_prefix_cons] at hbefore
      refine absurd (hbefore.2.subset ?_) hname
      exact List.mem_append_right rest (List.mem_singleton.mpr rfl)

theorem Tree.Plain.into {name : Bytes} (hplain : tree.Plain path)
    (hname : tree.kind (resolve path ++ [name]) ≠ none) :
    tree.Plain (path ++ 47 :: name) := by
  refine hplain.join ?_ (tree.named hname).2.2.2
  rw [tree.parent hname]
  decide

end Paths

/-- The paths to what is at a place and below it fit into the buffer. -/
def Fits (path : Bytes) (tree : Tree) : Prop :=
  ∀ below, tree.kind (resolve path ++ below) ≠ none →
    path.length + (below.map fun name => name.length + 1).sum < PATH_MAX

theorem resolve_join (path : Bytes) {name : Bytes} (hname : IsName name) :
    resolve (path ++ 47 :: name) = resolve path ++ [name] := by
  obtain ⟨hne, hdot, hdots, hslash⟩ := hname
  rw [resolve, List.splitOn_append_cons_self,
    List.splitOn_eq_singleton hslash, List.foldl_append, ← resolve]
  simp only [List.foldl_cons, List.foldl_nil, walk]
  rw [if_neg (not_or.mpr ⟨hne, hdot⟩), if_neg hdots]

theorem joined_eq {path name : Bytes} {tree : Tree} (hfits : Fits path tree)
    (hname : tree.kind (resolve path ++ [name]) ≠ none) :
    joined path name = path ++ 47 :: name := by
  have hlength := hfits [name] hname
  simp only [List.map_cons, List.map_nil, List.sum_cons,
    List.sum_nil] at hlength
  rw [joined, List.take_of_length_le]
  rw [List.length_append, List.length_cons]
  omega

/-- A name that is cut off may lead out of the directory it is in. -/
theorem joined_cut {path : Bytes} (hlength : path.length + 4 = PATH_MAX)
    (rest : Bytes) :
    resolve (joined path (46 :: 46 :: rest)) = (resolve path).dropLast := by
  have hcut : joined path (46 :: 46 :: rest) = path ++ 47 :: [46, 46] := by
    have hbehind : path ++ 47 :: 46 :: 46 :: rest =
        (path ++ 47 :: [46, 46]) ++ rest := by
      rw [List.append_assoc]
      rfl
    rw [joined, hbehind]
    refine List.take_left' ?_
    rw [List.length_append, ← hlength]
    rfl
  have hdots : ([46, 46] : Bytes).splitOn 47 = [[46, 46]] := by decide
  rw [hcut, resolve, List.splitOn_append_cons_self, hdots, List.foldl_append,
    ← resolve]
  rfl

theorem Fits.join {path name : Bytes} {tree : Tree} (hfits : Fits path tree)
    (hname : tree.kind (resolve path ++ [name]) ≠ none) :
    Fits (path ++ 47 :: name) tree := by
  intro below hbelow
  rw [resolve_join path (tree.named hname), List.append_assoc] at hbelow
  have hlength := hfits _ hbelow
  rw [List.singleton_append, List.map_cons, List.sum_cons] at hlength
  rw [List.length_append, List.length_cons]
  omega

/-- What bounds the recursion: the paths of the entries are longer. -/
theorem Fits.deeper {path name : Bytes} {tree : Tree} (hfits : Fits path tree)
    (hname : tree.kind (resolve path ++ [name]) ≠ none) {fuel : Nat}
    (hfuel : PATH_MAX ≤ path.length + (fuel + 1)) :
    (path ++ 47 :: name).length < PATH_MAX ∧
      PATH_MAX ≤ (path ++ 47 :: name).length + fuel := by
  have hlength := hfits [name] hname
  simp only [List.map_cons, List.map_nil, List.sum_cons,
    List.sum_nil] at hlength
  rw [List.length_append, List.length_cons]
  omega

theorem resolve_slash (before : Bytes) :
    resolve (before ++ [47]) = resolve before := by
  rw [resolve, List.splitOn_append_cons_self, List.splitOn_nil,
    List.foldl_append, ← resolve]
  rfl

/-- Below what is gone there is nothing. -/
theorem Tree.none_below (tree : Tree) {place : List Bytes}
    (hnone : tree.kind place ≠ some .dir)
    {below : List Bytes} (hbelow : below ≠ []) :
    tree.kind (place ++ below) = none := by
  induction below using List.reverseRecOn with
  | nil => exact absurd rfl hbelow
  | append_singleton below name ih =>
      by_contra hsome
      rw [← List.append_assoc] at hsome
      have hparent := tree.parent hsome
      by_cases hnil : below = []
      · rw [hnil, List.append_nil] at hparent
        exact hnone hparent
      · rw [ih hnil] at hparent
        cases hparent

theorem Tree.some_above (tree : Tree) {place below : List Bytes} {name : Bytes}
    (hsome : tree.kind (place ++ name :: below) ≠ none) :
    tree.kind (place ++ [name]) ≠ none := by
  intro hnone
  rw [← List.singleton_append, ← List.append_assoc] at hsome
  by_cases hnil : below = []
  · rw [hnil, List.append_nil] at hsome
    exact hsome hnone
  · refine hsome (tree.none_below ?_ hnil)
    rw [hnone]
    exact fun h => by cases h

/-- The entries that are still to come. -/
structure Pending (tree : Tree) (place : List Bytes) (names : List Bytes) :
    Prop where
  nodup : names.Nodup
  there : ∀ name ∈ names, name = .ofString ".." ∨ name = .ofString "." ∨
    tree.kind (place ++ [name]) ≠ none

/-- How the loop over the entries ends: with none to come, or a call has
failed. -/
def Ended (held : List Bytes → World → Prop) (atEnd : Bool) (r : Option Bool)
    (w : World) : Prop :=
  (r = some false ∧ held [] w) ∨
    ∃ fail, r = some fail ∧ (fail = true ∨ fail = atEnd) ∧ w.failed = true

section Walk

variable {path : Bytes} {inv : World → Prop} {w : World}

theorem Pending.tail {tree : Tree} {place : List Bytes} {name : Bytes}
    {names : List Bytes} (hpending : Pending tree place (name :: names)) :
    Pending tree place names :=
  ⟨(List.nodup_cons.mp hpending.nodup).2, fun other hother =>
    hpending.there other (List.mem_cons_of_mem _ hother)⟩

theorem Pending.some {tree : Tree} {place : List Bytes} {name : Bytes}
    {names : List Bytes} (hpending : Pending tree place (name :: names))
    (hdots : ¬ (name = .ofString ".." ∨ name = .ofString ".")) :
    tree.kind (place ++ [name]) ≠ none := by
  rw [not_or] at hdots
  exact ((hpending.there name List.mem_cons_self).resolve_left
    hdots.1).resolve_left hdots.2

/-- What is at another entry or below it is not below this one. -/
theorem Pending.apart {tree : Tree} {place : List Bytes} {name other : Bytes}
    {names : List Bytes} (hpending : Pending tree place (name :: names))
    (hother : other ∈ names) (below : List Bytes) :
    ¬ place ++ [name] <+: place ++ other :: below := by
  rw [List.prefix_append_right_inj, List.singleton_prefix_cons_iff]
  rintro rfl
  exact (List.nodup_cons.mp hpending.nodup).1 hother

/-- The entries come when the directory is opened. -/
theorem World.Lists.pending {place : List Bytes} {names : List Bytes}
    (hlists : w.Lists place names) : Pending w.tree place names := by
  refine ⟨hlists.1, fun name hname => ?_⟩
  rcases (hlists.2 name).mp hname with hdot | hdots | hsome
  · exact .inr (.inl hdot)
  · exact .inl hdots
  · exact .inr (.inr hsome)

/-- What the loop keeps as entry after entry is taken off. -/
theorem eachEntry_safe (held : List Bytes → World → Prop) {atEnd : Bool}
    {bad : Int → Bool} {entry : Bytes → Program (Option Int)}
    (hgood : bad 0 = false) (hbad : bad (-1) = true)
    (hinv : ∀ {names w}, held names w → inv w)
    (hfail : ∀ {w}, inv w → inv w.fail)
    (hdots : ∀ {name names w}, name = .ofString ".." ∨ name = .ofString "." →
      held (name :: names) w → held names w)
    (hentry : ∀ {name names w},
      ¬ (name = .ofString ".." ∨ name = .ofString ".") →
      held (name :: names) w → Safe sem inv
        (fun r w' => (r = some 0 ∧ held names w') ∨
          (r = some (-1) ∧ w'.failed = true)) (entry (joined path name)) w)
    {names : List Bytes} (hheld : held names w) :
    Safe sem inv (Ended held atEnd) (eachEntry atEnd bad entry path names)
      w := by
  induction names generalizing w with
  | nil => exact ⟨hinv hheld, .inl ⟨rfl, hheld⟩⟩
  | cons name names ih =>
      simp only [eachEntry, ask, perform_bind]
      refine ⟨hinv hheld, fun (more : Bool) w' hsem => ?_⟩
      rcases hsem with ⟨rfl, rfl⟩ | ⟨rfl, rfl⟩
      · dsimp only
        rw [if_neg (by decide)]
        split
        · next hskip => exact ih (hdots hskip hheld)
        · next hskip =>
            refine Safe.bind (hentry hskip hheld) fun r w' hnow hr => ?_
            rcases hr with ⟨rfl, hheld'⟩ | ⟨rfl, hfailed⟩
            · dsimp only
              rw [hgood, if_neg (by decide)]
              exact ih hheld'
            · dsimp only
              rw [hbad, if_pos rfl]
              exact ⟨hnow, .inr ⟨true, rfl, .inl rfl, hfailed⟩⟩
      · exact ⟨hfail (hinv hheld), .inr ⟨atEnd, rfl, .inr rfl, rfl⟩⟩

end Walk

end DirUtil

end MetaOS
