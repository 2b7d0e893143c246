/-
File systems for src/bootable/recovery/minzip/DirUtil.c that answer each call:
the files are given by a list, and a call fails only where it cannot be done.
What they answer the environment allows, so programs can be run in them.
-/
import MetaOS.DirUtil

namespace MetaOS

namespace DirUtil

open Prog

/-- What has come to places and gone from them, the latest first. -/
abbrev Log := List (List Bytes × Option Kind)

def Log.kind (log : Log) (place : List Bytes) : Option Kind :=
  if place = [] then some .dir else (log.lookup place).join

instance (name : Bytes) : Decidable (IsName name) :=
  inferInstanceAs (Decidable (_ ∧ _))

/-- What is there is in a directory and has a name. -/
def Log.Sound (log : Log) : Prop :=
  ∀ entry ∈ log, log.kind entry.1 ≠ none → entry.1 ≠ [] →
    log.kind entry.1.dropLast = some .dir ∧
      ∀ name ∈ entry.1.getLast?, IsName name

instance (log : Log) : Decidable log.Sound :=
  inferInstanceAs (Decidable (∀ entry ∈ log, _))

section Log

variable {log : Log} {place : List Bytes} {name : Bytes}

theorem Log.kind_cons (hplace : place ≠ []) (kind : Option Kind) :
    Log.kind ((place, kind) :: log) =
      Function.update log.kind place kind := by
  funext other
  by_cases hsame : other = place
  · rw [hsame, Function.update_self, Log.kind, if_neg hplace,
      List.lookup_cons_self]
    rfl
  · rw [Function.update_of_ne hsame, Log.kind, Log.kind, List.lookup_cons,
      beq_false_of_ne hsame]

theorem Log.mem_of_kind (hplace : place ≠ []) (hkind : log.kind place ≠ none) :
    ∃ entry ∈ log, entry.1 = place := by
  rw [Log.kind, if_neg hplace] at hkind
  by_contra hnone
  have hlookup : log.lookup place = none := by
    refine List.lookup_eq_none_iff.mpr fun entry hentry => ?_
    refine bne_iff_ne.mpr fun hsame => ?_
    exact hnone ⟨entry, hentry, hsame.symm⟩
  rw [hlookup] at hkind
  exact hkind rfl

theorem Log.Sound.entry (hsound : log.Sound)
    (hkind : log.kind (place ++ [name]) ≠ none) :
    log.kind place = some .dir ∧ IsName name := by
  have hne := List.concat_ne_nil name place
  obtain ⟨entry, hentry, hplace⟩ := Log.mem_of_kind hne hkind
  have hthere := hsound entry hentry
  rw [hplace, List.dropLast_concat, List.getLast?_concat] at hthere
  exact (hthere hkind hne).imp_right fun h => h name rfl

end Log

/-- A log that makes a tree, and the attributes. -/
structure Files where
  log : Log
  attrs : List Bytes → Attr
  failed : Bool
  sound : log.Sound

namespace Files

def world (files : Files) : World where
  tree :=
    { kind := files.log.kind
      root := rfl
      parent := fun h => (files.sound.entry h).1
      named := fun h => (files.sound.entry h).2 }
  attrs := files.attrs
  failed := files.failed

def fail (files : Files) : Files := { files with failed := true }

/-- Something comes to a place, or goes from it, where this makes a tree. -/
def set (files : Files) (place : List Bytes) (kind : Option Kind) :
    Option Files :=
  if h : place ≠ [] ∧ Log.Sound ((place, kind) :: files.log) then
    some { files with log := (place, kind) :: files.log, sound := h.2 }
  else none

/-- The names of the entries of a directory. -/
def names (files : Files) (place : List Bytes) : List Bytes :=
  (files.log.filterMap (·.1.getLast?)).dedup.filter fun name =>
    files.log.kind (place ++ [name]) ≠ none

/-- `stat` does not go on to what a link leads to: it fails there. -/
def stat (files : Files) (path : Bytes) : Stat × Files :=
  if files.world.tree.Misses path then (.ENOENT, files)
  else if files.world.tree.Leads path then
    match files.log.kind (resolve path) with
    | some .dir => (.found .dir, files)
    | some .file => (.found .file, files)
    | some .link | none => (.error, files.fail)
  else (.error, files.fail)

/-- What is done at the place of a path, if it can be done there. -/
def doAt (files : Files) (path : Bytes)
    (act : List Bytes → Option Kind → Option (Int × Files)) : Int × Files :=
  if files.world.tree.Leads path then
    (act (resolve path) (files.log.kind (resolve path))).getD (-1, files.fail)
  else (-1, files.fail)

def mkdir (files : Files) (path : Bytes) : Int × Files :=
  files.doAt (path.rdropWhile (· == 47)) fun place kind =>
    if kind = none then
      (files.set place (some .dir)).map fun files => (0, files)
    else none

def setAttr (files : Files) (path : Bytes) (change : Attr → Attr) :
    Int × Files :=
  files.doAt path fun place kind =>
    if kind ≠ none ∧ kind ≠ some .link then
      some (0, { files with
        attrs := Function.update files.attrs place
          (change (files.attrs place)) })
    else none

def unlink (files : Files) (path : Bytes) : Int × Files :=
  files.doAt path fun place kind =>
    if kind ≠ none ∧ kind ≠ some .dir then
      (files.set place none).map fun files => (0, files)
    else none

def rmdir (files : Files) (path : Bytes) : Int × Files :=
  files.doAt path fun place kind =>
    if kind = some .dir then
      if files.names place = [] then
        (files.set place none).map fun files => (0, files)
      else some (-1, files)
    else none

def opendir (files : Files) (path : Bytes) : Option (List Bytes) × Files :=
  if files.world.tree.Leads path ∧
      files.log.kind (resolve path) = some .dir then
    (some (.ofString "." :: .ofString ".." :: files.names (resolve path)),
      files)
  else (none, files.fail)

def answer : (c : Call) → Files → c.Answer × Files
  | .malloc _, files => (true, files)
  | .stat path, files => files.stat path
  | .mkdir path _, files => files.mkdir path
  | .utime _ _, files => ((0 : Int), files)
  | .lstat path, files =>
      if files.world.tree.Leads path then
        (files.log.kind (resolve path), files)
      else (none, files.fail)
  | .chown path uid gid, files =>
      files.setAttr path fun attr => attr.chown uid gid
  | .chmod path mode, files =>
      files.setAttr path fun attr => { attr with mode := mode }
  | .unlink path, files => files.unlink path
  | .opendir path, files => files.opendir path
  | .readdir, files => (true, files)
  | .closedir, files => ((0 : Int), files)
  | .rmdir path, files => files.rmdir path

section Answers

variable {files files' : Files} {place : List Bytes} {path : Bytes}

theorem set_world {kind : Option Kind}
    (hset : files.set place kind = some files') :
    files'.world.tree.kind =
        Function.update files.world.tree.kind place kind ∧
      files'.attrs = files.attrs ∧ files'.failed = files.failed := by
  unfold set at hset
  split at hset
  · next h =>
      cases hset
      exact ⟨Log.kind_cons h.1 kind, rfl, rfl⟩
  · cases hset

theorem mem_names (hname : Bytes) : hname ∈ files.names place ↔
    files.world.tree.kind (place ++ [hname]) ≠ none := by
  rw [names, List.mem_filter, decide_eq_true_iff]
  refine and_iff_right_of_imp fun hkind => ?_
  obtain ⟨entry, hentry, hplace⟩ :=
    Log.mem_of_kind (List.concat_ne_nil hname place) hkind
  rw [List.mem_dedup, List.mem_filterMap]
  refine ⟨entry, hentry, ?_⟩
  rw [hplace, List.getLast?_concat]

theorem lists_names : files.world.Lists place
    (.ofString "." :: .ofString ".." :: files.names place) := by
  have hnamed : ∀ name ∈ files.names place, IsName name := fun name hname =>
    files.world.tree.named ((mem_names name).mp hname)
  refine ⟨?_, fun name => ?_⟩
  · rw [List.nodup_cons, List.nodup_cons, List.mem_cons, not_or]
    refine ⟨⟨by decide, fun h => (hnamed _ h).2.1 rfl⟩,
      fun h => (hnamed _ h).2.2.1 rfl, ?_⟩
    exact (List.nodup_dedup _).filter _
  · rw [List.mem_cons, List.mem_cons, mem_names]

theorem empty_of_names (hnames : files.names place = []) :
    files.world.Empty place := by
  intro name
  by_contra hkind
  have hmem := (mem_names name).mpr hkind
  rw [hnames] at hmem
  cases hmem

/-- What is done is allowed if it is where it is done. -/
theorem doAt_on {act : List Bytes → Option Kind → Option (Int × Files)}
    (acts : Int → World → Prop)
    (hact : ∀ r files',
      act (resolve path) (files.world.tree.kind (resolve path)) =
        some (r, files') → acts r files'.world) :
    files.world.On path
      (acts (files.doAt path act).1 (files.doAt path act).2.world)
      ((files.doAt path act).1 = -1 ∧
        (files.doAt path act).2.world = files.world.fail) := by
  intro _
  unfold doAt
  split
  · next hleads =>
      cases hdone : act (resolve path) (files.log.kind (resolve path)) with
      | none => exact .inr ⟨rfl, rfl⟩
      | some r => exact .inl ⟨hleads, hact r.1 r.2 hdone⟩
  · exact .inr ⟨rfl, rfl⟩

theorem stat_sem (files : Files) (path : Bytes) :
    sem (.stat path) files.world (files.stat path).1
      (files.stat path).2.world := by
  intro _
  unfold stat
  split
  · next hmisses => exact .inl ⟨.inl hmisses, rfl⟩
  · split
    · next hleads =>
        cases hkind : files.log.kind (resolve path) with
        | none => exact .inr ⟨rfl, rfl⟩
        | some kind =>
            cases kind with
            | file => exact .inl ⟨⟨by decide, hleads, .inl hkind⟩, rfl⟩
            | link => exact .inr ⟨rfl, rfl⟩
            | dir => exact .inl ⟨⟨by decide, hleads, .inl hkind⟩, rfl⟩
    · exact .inr ⟨rfl, rfl⟩

theorem mkdir_sem (files : Files) (path : Bytes) (mode : Int) :
    sem (.mkdir path mode) files.world (files.mkdir path).1
      (files.mkdir path).2.world := by
  refine doAt_on (fun r w' => r = 0 ∧
    files.world.Made (resolve (path.rdropWhile (· == 47))) w')
    fun r files' hdone => ?_
  split at hdone
  · next hnone =>
      obtain ⟨files'', hset, heq⟩ := Option.map_eq_some_iff.mp hdone
      cases heq
      obtain ⟨hkind, hattrs, hfailed⟩ := set_world hset
      exact ⟨rfl, hnone, hkind, fun other _ => congrFun hattrs other, hfailed⟩
  · cases hdone

theorem setAttr_on (files : Files) (path : Bytes) (change : Attr → Attr) :
    files.world.On path
      ((files.setAttr path change).1 = 0 ∧
        files.world.tree.kind (resolve path) ≠ none ∧
        (files.setAttr path change).2.world =
          files.world.setAttr (resolve path)
            (change (files.attrs (resolve path))))
      ((files.setAttr path change).1 = -1 ∧
        (files.setAttr path change).2.world = files.world.fail) := by
  refine doAt_on (fun r w' => r = 0 ∧
    files.world.tree.kind (resolve path) ≠ none ∧
      w' = files.world.setAttr (resolve path)
        (change (files.attrs (resolve path)))) fun r files' hdone => ?_
  split at hdone
  · next hthere =>
      cases hdone
      exact ⟨rfl, hthere.1, rfl⟩
  · cases hdone

theorem set_removed {r : Int}
    (hdone : (files.set place none).map (fun files => ((0 : Int), files)) =
      some (r, files')) : r = 0 ∧ files.world.Removed place files'.world := by
  obtain ⟨files'', hset, heq⟩ := Option.map_eq_some_iff.mp hdone
  cases heq
  exact ⟨rfl, set_world hset⟩

theorem unlink_sem (files : Files) (path : Bytes) :
    sem (.unlink path) files.world (files.unlink path).1
      (files.unlink path).2.world := by
  refine doAt_on (fun r w' => r = 0 ∧
    files.world.tree.kind (resolve path) ≠ none ∧
      files.world.tree.kind (resolve path) ≠ some .dir ∧
        files.world.Removed (resolve path) w') fun r files' hdone => ?_
  split at hdone
  · next hthere =>
      obtain ⟨hzero, hremoved⟩ := set_removed hdone
      exact ⟨hzero, hthere.1, hthere.2, hremoved⟩
  · cases hdone

theorem rmdir_sem (files : Files) (path : Bytes) :
    sem (.rmdir path) files.world (files.rmdir path).1
      (files.rmdir path).2.world := by
  refine doAt_on (fun r w' =>
    (r = 0 ∧ files.world.tree.kind (resolve path) = some .dir ∧
      files.world.Empty (resolve path) ∧
        files.world.Removed (resolve path) w') ∨
      (r = -1 ∧ ¬ files.world.Empty (resolve path) ∧ w' = files.world))
    fun r files' hdone => ?_
  split at hdone
  · next hdir =>
      split at hdone
      · next hnames =>
          obtain ⟨hzero, hremoved⟩ := set_removed hdone
          exact .inl ⟨hzero, hdir, empty_of_names hnames, hremoved⟩
      · next hnames =>
          cases hdone
          refine .inr ⟨rfl, fun hempty => ?_, rfl⟩
          obtain ⟨name, hname⟩ := List.exists_mem_of_ne_nil _ hnames
          exact (mem_names name).mp hname (hempty name)
  · cases hdone

theorem opendir_sem (files : Files) (path : Bytes) :
    sem (.opendir path) files.world (files.opendir path).1
      (files.opendir path).2.world := by
  intro _ _
  unfold opendir
  split
  · next hthere =>
      exact .inl ⟨hthere.1, _, rfl, hthere.2, lists_names, rfl⟩
  · exact .inr ⟨rfl, rfl⟩

theorem lstat_sem (files : Files) (path : Bytes) :
    sem (.lstat path) files.world (answer (.lstat path) files).1
      (answer (.lstat path) files).2.world := by
  intro _
  simp only [answer]
  split
  · next hleads => exact .inl ⟨hleads, rfl, rfl⟩
  · exact .inr ⟨rfl, rfl⟩

theorem answer_sem (c : Call) (files : Files) :
    sem c files.world (answer c files).1 (answer c files).2.world := by
  cases c with
  | malloc size => exact .inl ⟨rfl, rfl⟩
  | stat path => exact stat_sem files path
  | mkdir path mode => exact mkdir_sem files path mode
  | utime path times => exact .inl ⟨rfl, rfl⟩
  | lstat path => exact lstat_sem files path
  | chown path uid gid =>
      intro _ hplain
      refine (setAttr_on files path _ hplain).imp_left ?_
      rintro ⟨hleads, hzero, hthere, hset⟩
      exact ⟨hleads, hzero, hthere, _, hset⟩
  | chmod path mode =>
      intro _ hplain
      exact setAttr_on files path _ hplain
  | unlink path => exact unlink_sem files path
  | opendir path => exact opendir_sem files path
  | readdir => exact .inl ⟨rfl, rfl⟩
  | closedir => exact .inl ⟨rfl, rfl⟩
  | rmdir path => exact rmdir_sem files path

/-- A program can run as the files answer. -/
theorem reaches_answers {α : Type} (prog : Program α) (files : Files) :
    Reaches sem (prog, files.world)
      (ret (prog.eval answer files).1, (prog.eval answer files).2.world) := by
  have hruns : Reaches
      (fun c (files : Files) r after => sem c files.world r after.world)
      (prog, files)
      (ret (prog.eval answer files).1, (prog.eval answer files).2) :=
    reaches_eval answer answer_sem prog files
  refine hruns.lift (fun config => (config.1, config.2.world))
    fun before after hstep => ?_
  cases hstep with
  | answer happ => exact .answer happ

/-- Whether the paths fit is seen from the places the log names. -/
theorem fits (hshort : path.length < PATH_MAX)
    (hlog : ∀ entry ∈ files.log, resolve path <+: entry.1 →
      path.length + ((entry.1.drop (resolve path).length).map
        fun name => name.length + 1).sum < PATH_MAX) :
    Fits path files.world.tree := by
  intro below hbelow
  by_cases hnil : below = []
  · rw [hnil]
    exact hshort
  · obtain ⟨entry, hentry, hplace⟩ := Log.mem_of_kind
      (List.append_ne_nil_of_right_ne_nil _ hnil) hbelow
    have hlength := hlog entry hentry (hplace ▸ List.prefix_append _ _)
    rwa [hplace, List.drop_left] at hlength

end Answers

end Files

end DirUtil

end MetaOS
