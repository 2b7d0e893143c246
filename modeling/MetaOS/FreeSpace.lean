/-
What `MakeFreeSpaceOnCache` deletes and when it reports success.

The environment is a file system at rest together with a sequence of answers
to `statfs`.  The figure the loop goes by is a `size_t`: a failure looks like
the largest figure, and a large one may look small.
-/
import MetaOS.FreeCache

namespace MetaOS

namespace ApplyPatch

open FileSystem

/-- What the calls of `MakeFreeSpaceOnCache` meet.  `free` are the answers to
successive `statfs` calls; only a symbolic link has a target. -/
structure CacheState where
  listing : Path → Option (List Bytes)
  info : Path → Option (Nat × Stat)
  target : Path → Option Path
  removes : Path → Bool
  free : Nat → Option (Nat × Nat)
  plain : ∀ {dir names name}, listing dir = some names → name ∈ names →
    (47 : UInt8) ∉ name

/-- The calls of interest. -/
inductive Deed where
  | measured (sf : Option (Nat × Nat))
  | unlinked (path : Path)

namespace CacheState

variable (cache : CacheState)

/-- The state of a run is what was done so far, and how often `statfs` was
called. -/
def answers : (c : Syscall) → List Deed × Nat →
    Option (Answer c × List Deed × Nat)
  | .stat path, state => some (cache.info path, state)
  | .readdir dir, state => some (cache.listing dir, state)
  | .readlink path, state => some (cache.target path, state)
  | .statfs _, (log, count) => some (cache.free count,
      log ++ [.measured (cache.free count)], count + 1)
  | .unlink path, (log, count) =>
      some (cache.removes path, log ++ [.unlinked path], count)
  | _, _ => none

/-- The paths that some process has open. -/
def opened : List Path :=
  ((cache.listing (ascii "/proc")).getD []).flatMap fun pid =>
    if isPid pid then
      ((cache.listing (fdDir pid)).getD []).filterMap fun fd =>
        cache.target (fdDir pid ++ fd)
    else []

/-- `stat` finds a regular file. -/
def statIsReg (path : Path) : Bool :=
  match cache.info path with
  | none => false
  | some (_, st) => st.isReg

/-- The files of a directory that `stat` finds to be regular. -/
def filesIn (dir : Path) : List Path :=
  (((cache.listing dir).getD []).map fun name =>
    dir ++ ascii "/" ++ name).filter fun path =>
      path ≠ CACHE_TEMP_SOURCE ∧ cache.statIsReg path

/-- The files that `MakeFreeSpaceOnCache` would delete, in its order. -/
def candidates : List Path :=
  if (cache.listing (ascii "/proc")).isSome then
    (expendableDirs.flatMap cache.filesIn).filter (· ∉ cache.opened)
  else []

/-- An unopened regular file directly in one of the directories. -/
structure Deletable (path : Path) : Prop where
  expendable : Expendable path
  regular : cache.statIsReg path = true
  no_symlink : cache.target path = none
  unopened : path ∉ cache.opened

end CacheState

/-- The file system showed that there was not enough room. -/
def Deed.Fits (needed : Nat) : Deed → Deed → Prop
  | .measured (some (bsize, bfree)), .unlinked _ => bsize * bfree < needed
  | _, _ => True

/-- Success means that the last `statfs` showed enough room; only files that
may be deleted are, and none behind a `statfs` that showed enough room. -/
structure FreesSpace (cache : CacheState) (needed : Nat) (ok : Bool)
    (log : List Deed) : Prop where
  room : ok = true → ∃ bsize bfree,
    log.getLast? = some (.measured (some (bsize, bfree))) ∧
      needed ≤ bsize * bfree
  deletable : ∀ path, .unlinked path ∈ log → cache.Deletable path
  fits : log.Pairwise (Deed.Fits needed)

section Find

variable {cache : CacheState} {state : List Deed × Nat}

theorem advance_expendableEntries (dir : Path) (names : List Bytes) :
    (expendableEntries dir names).advance cache.answers state =
      (Prog.ret ((names.map fun name => dir ++ ascii "/" ++ name).filter
        fun path => path ≠ CACHE_TEMP_SOURCE ∧ cache.statIsReg path),
        state) := by
  induction names with
  | nil => rfl
  | cons name names ih =>
      rw [expendableEntries, List.map_cons]
      generalize dir ++ ascii "/" ++ name = path
      by_cases hsaved : path = CACHE_TEMP_SOURCE
      · rw [List.filter_cons_of_neg (by simp [hsaved])]
        simp only [hsaved, if_true]
        exact ih
      · simp only [hsaved, if_false]
        have hstat : (stat path).advance cache.answers state =
            (Prog.ret (cache.info path), state) := rfl
        rw [Prog.advance_bind hstat]
        cases hinfo : cache.info path with
        | none =>
            rw [List.filter_cons_of_neg
              (by simp [CacheState.statIsReg, hinfo])]
            exact ih
        | some answer =>
            by_cases hreg : answer.2.isReg = true
            · rw [List.filter_cons_of_pos
                (by simp [CacheState.statIsReg, hinfo, hreg, hsaved])]
              simp only [hreg, if_true]
              rw [Prog.advance_bind ih]
              rfl
            · rw [List.filter_cons_of_neg
                (by simp [CacheState.statIsReg, hinfo, hreg])]
              simp only [hreg]
              exact ih

theorem advance_expendableFiles (dirs : List Path) :
    (expendableFiles dirs).advance cache.answers state =
      (Prog.ret (dirs.flatMap cache.filesIn), state) := by
  induction dirs with
  | nil => rfl
  | cons dir dirs ih =>
      have hlist : (readdir dir).advance cache.answers state =
          (Prog.ret (cache.listing dir), state) := rfl
      rw [expendableFiles, Prog.advance_bind hlist, List.flatMap_cons,
        CacheState.filesIn]
      cases cache.listing dir with
      | none => exact ih
      | some names =>
          dsimp only
          rw [Prog.advance_bind (advance_expendableEntries dir names),
            Prog.advance_bind ih]
          rfl

/-- The files with those that are open set to `NULL`. -/
def mask (opened files : List Path) : List (Option Path) :=
  files.map fun file => if file ∈ opened then none else some file

theorem eliminate_mask {files : List Path}
    (hcache : ∀ file ∈ files, ascii "/cache/" <+: file)
    (link : Path) (opened : List Path) :
    eliminate link (mask opened files) = mask (opened ++ [link]) files := by
  rw [eliminate, mask, mask]
  split
  · rw [List.map_map]
    refine List.map_congr_left fun file _ => ?_
    by_cases hopen : file ∈ opened
    · simp [hopen]
    · by_cases hlink : file = link
      · simp [hlink]
      · simp [hopen, hlink]
  · rename_i hother
    refine List.map_congr_left fun file hfile => ?_
    have hlink : file ≠ link := fun heq => hother (heq ▸ hcache file hfile)
    simp [hlink]

variable {files : List Path}
  (hcache : ∀ file ∈ files, ascii "/cache/" <+: file)

include hcache

theorem advance_eliminateLinks (dir : Path) (fds : List Bytes)
    (opened : List Path) :
    (eliminateLinks dir fds (mask opened files)).advance cache.answers
        state =
      (Prog.ret (mask (opened ++
        fds.filterMap fun fd => cache.target (dir ++ fd)) files), state) := by
  induction fds generalizing opened with
  | nil =>
      rw [List.filterMap_nil, List.append_nil]
      rfl
  | cons fd fds ih =>
      have hlink : (readlink (dir ++ fd)).advance cache.answers state =
          (Prog.ret (cache.target (dir ++ fd)), state) := rfl
      rw [eliminateLinks, Prog.advance_bind hlink]
      cases htarget : cache.target (dir ++ fd) with
      | none =>
          simp only [List.filterMap_cons, htarget]
          exact ih opened
      | some link =>
          have hrest := ih (opened ++ [link])
          rw [List.append_assoc, List.singleton_append] at hrest
          simp only [List.filterMap_cons, htarget, eliminate_mask hcache]
          exact hrest

theorem advance_eliminateProcesses (pids : List Bytes)
    (opened : List Path) :
    (eliminateProcesses pids (mask opened files)).advance cache.answers
        state =
      (Prog.ret (mask (opened ++ pids.flatMap fun pid =>
        if isPid pid then
          ((cache.listing (fdDir pid)).getD []).filterMap fun fd =>
            cache.target (fdDir pid ++ fd)
        else []) files), state) := by
  induction pids generalizing opened with
  | nil =>
      rw [List.flatMap_nil, List.append_nil]
      rfl
  | cons pid pids ih =>
      rw [eliminateProcesses, List.flatMap_cons]
      by_cases hpid : isPid pid = true
      · simp only [hpid, if_true]
        have hlist : (readdir (fdDir pid)).advance cache.answers state =
            (Prog.ret (cache.listing (fdDir pid)), state) := rfl
        rw [Prog.advance_bind hlist]
        cases cache.listing (fdDir pid) with
        | none => exact ih opened
        | some fds =>
            dsimp only
            rw [Prog.advance_bind (advance_eliminateLinks hcache _ fds _),
              ← List.append_assoc]
            exact ih _
      · simp only [hpid]
        exact ih opened

end Find

namespace CacheState

variable {cache : CacheState} {path : Path}

theorem expendable_of_mem
    (hmem : path ∈ expendableDirs.flatMap cache.filesIn) :
    Expendable path ∧ cache.statIsReg path = true := by
  obtain ⟨dir, hdir, hmem⟩ := List.mem_flatMap.mp hmem
  obtain ⟨hmem, hpath⟩ := List.mem_filter.mp hmem
  obtain ⟨name, hname, rfl⟩ := List.mem_map.mp hmem
  obtain ⟨hsaved, hreg⟩ := of_decide_eq_true hpath
  refine ⟨⟨hsaved, dir, hdir, name, ?_, rfl⟩, hreg⟩
  cases hlist : cache.listing dir with
  | none =>
      rw [hlist] at hname
      cases hname
  | some names =>
      rw [hlist] at hname
      exact cache.plain hlist hname

/-- The candidates are deletable, unless they are symbolic links. -/
theorem deletable_iff (hmem : path ∈ cache.candidates) :
    cache.Deletable path ↔ cache.target path = none := by
  rw [candidates] at hmem
  split at hmem
  · obtain ⟨hmem, hopen⟩ := List.mem_filter.mp hmem
    obtain ⟨hexpendable, hreg⟩ := expendable_of_mem hmem
    exact ⟨fun h => h.no_symlink,
      fun h => ⟨hexpendable, hreg, h, of_decide_eq_true hopen⟩⟩
  · cases hmem

end CacheState

theorem cache_prefix {path : Path} (hexpendable : Expendable path) :
    ascii "/cache/" <+: path := by
  obtain ⟨-, dir, hdir, name, -, rfl⟩ := hexpendable
  rw [expendableDirs, List.mem_cons, List.mem_singleton] at hdir
  rcases hdir with rfl | rfl
  · exact ⟨name, rfl⟩
  · exact ⟨ascii "recovery/otatest/" ++ name, rfl⟩

theorem advance_findExpendableFiles (cache : CacheState)
    (state : List Deed × Nat) :
    findExpendableFiles.advance cache.answers state =
      (Prog.ret ((cache.listing (ascii "/proc")).map fun _ =>
        mask cache.opened (expendableDirs.flatMap cache.filesIn)), state) := by
  have hlist : (readdir (ascii "/proc")).advance cache.answers state =
      (Prog.ret (cache.listing (ascii "/proc")), state) := rfl
  have hcache : ∀ file ∈ expendableDirs.flatMap cache.filesIn,
      ascii "/cache/" <+: file := fun file hmem =>
    cache_prefix (CacheState.expendable_of_mem hmem).1
  rw [findExpendableFiles, Prog.advance_bind (advance_expendableFiles _),
    eliminateOpenFiles, Prog.advance_bind hlist]
  cases hproc : cache.listing (ascii "/proc") with
  | none => rfl
  | some names =>
      have hopened : cache.opened = [] ++ names.flatMap fun pid =>
          if isPid pid then
            ((cache.listing (fdDir pid)).getD []).filterMap fun fd =>
              cache.target (fdDir pid ++ fd)
          else [] := by
        rw [CacheState.opened, hproc]
        rfl
      have hstart : (expendableDirs.flatMap cache.filesIn).map some =
          mask [] (expendableDirs.flatMap cache.filesIn) := by
        simp [mask]
      dsimp only
      rw [hstart, Prog.advance_bind
        (advance_eliminateProcesses hcache names []), hopened]
      rfl

section Delete

variable (cache : CacheState) (needed : Nat)

/-- The deeds behind a `statfs` call, by its number. -/
def deeds : List Path → Nat → List Deed
  | [], _ => []
  | path :: paths, count =>
      if freeBytes (cache.free count) < needed then
        .unlinked path :: .measured (cache.free (count + 1)) ::
          deeds paths (count + 1)
      else []

/-- The last `statfs` call. -/
def lastCount : List Path → Nat → Nat
  | [], count => count
  | _ :: paths, count =>
      if freeBytes (cache.free count) < needed then lastCount paths (count + 1)
      else count

variable {cache needed}

theorem deleteFiles_of_enough (names : List (Option Path)) {freeNow : Nat}
    (henough : ¬ freeNow < needed) :
    deleteFiles needed names freeNow = pure freeNow := by
  cases names with
  | nil => rfl
  | cons name names =>
      unfold deleteFiles
      rw [if_neg henough]

theorem deeds_of_enough (paths : List Path) {count : Nat}
    (henough : ¬ freeBytes (cache.free count) < needed) :
    deeds cache needed paths count = [] ∧
      lastCount cache needed paths count = count := by
  cases paths with
  | nil => exact ⟨rfl, rfl⟩
  | cons path paths =>
      rw [deeds, lastCount, if_neg henough, if_neg henough]
      exact ⟨rfl, rfl⟩

theorem advance_deleteFiles (opened files : List Path) (log : List Deed)
    (count : Nat) :
    (deleteFiles needed (mask opened files)
        (freeBytes (cache.free count))).advance cache.answers
          (log, count + 1) =
      (Prog.ret (freeBytes (cache.free (lastCount cache needed
          (files.filter (· ∉ opened)) count))),
        log ++ deeds cache needed (files.filter (· ∉ opened)) count,
        lastCount cache needed (files.filter (· ∉ opened)) count + 1) := by
  induction files generalizing log count with
  | nil =>
      rw [List.filter_nil, deeds, List.append_nil]
      rfl
  | cons file files ih =>
      by_cases hfull : freeBytes (cache.free count) < needed
      · by_cases hopen : file ∈ opened
        · rw [List.filter_cons_of_neg (by simpa using hopen), mask,
            List.map_cons, if_pos hopen, deleteFiles, if_pos hfull]
          exact ih log count
        · have hunlink : (unlink file).advance cache.answers
              (log, count + 1) = (Prog.ret (cache.removes file),
                log ++ [.unlinked file], count + 1) := rfl
          have hstatfs : (freeSpaceForFile (ascii "/cache")).advance
              cache.answers (log ++ [.unlinked file], count + 1) =
              (Prog.ret (freeBytes (cache.free (count + 1))),
                log ++ [.unlinked file] ++
                  [.measured (cache.free (count + 1))], count + 2) := rfl
          rw [List.filter_cons_of_pos (by simpa using hopen), mask,
            List.map_cons, if_neg hopen, deleteFiles, if_pos hfull]
          rw [Prog.advance_bind hunlink, Prog.advance_bind hstatfs, deeds,
            lastCount, if_pos hfull, if_pos hfull]
          have hrest := ih (log ++ [.unlinked file] ++
            [.measured (cache.free (count + 1))]) (count + 1)
          simp only [List.append_assoc, List.cons_append,
            List.nil_append] at hrest ⊢
          exact hrest
      · obtain ⟨hdeeds, hlast⟩ := deeds_of_enough
          ((file :: files).filter (· ∉ opened)) hfull
        rw [hdeeds, hlast, deleteFiles_of_enough _ hfull, List.append_nil]
        rfl

/-- The whole run. -/
theorem advance_makeFreeSpaceOnCache :
    (makeFreeSpaceOnCache needed).advance cache.answers ([], 0) =
      (Prog.ret (decide (needed ≤ freeBytes (cache.free
          (lastCount cache needed cache.candidates 0)))),
        .measured (cache.free 0) :: deeds cache needed cache.candidates 0,
        lastCount cache needed cache.candidates 0 + 1) := by
  have hstatfs : (freeSpaceForFile (ascii "/cache")).advance cache.answers
      ([], 0) = (Prog.ret (freeBytes (cache.free 0)),
        [.measured (cache.free 0)], 1) := rfl
  rw [makeFreeSpaceOnCache, Prog.advance_bind hstatfs]
  by_cases henough : needed ≤ freeBytes (cache.free 0)
  · obtain ⟨hdeeds, hlast⟩ := deeds_of_enough cache.candidates
      (Nat.not_lt.mpr henough)
    rw [hdeeds, hlast, if_pos henough, decide_eq_true henough]
    rfl
  · have hfind := advance_findExpendableFiles cache
      ([.measured (cache.free 0)], 1)
    rw [if_neg henough, Prog.advance_bind hfind]
    cases hproc : cache.listing (ascii "/proc") with
    | none =>
        have hnone : cache.candidates = [] := by
          rw [CacheState.candidates, hproc]
          rfl
        rw [hnone, lastCount, deeds, decide_eq_false henough]
        rfl
    | some names =>
        have hsome : cache.candidates =
            (expendableDirs.flatMap cache.filesIn).filter
              (· ∉ cache.opened) := by
          rw [CacheState.candidates, hproc]
          rfl
        rw [hsome]
        dsimp only [Option.map_some]
        by_cases hempty : mask cache.opened
            (expendableDirs.flatMap cache.filesIn) = []
        · rw [if_pos hempty, List.map_eq_nil_iff.mp hempty, List.filter_nil,
            lastCount, deeds, decide_eq_false henough]
          rfl
        · rw [if_neg hempty, Prog.advance_bind (advance_deleteFiles _ _ _ _)]
          rfl

end Delete

section Honest

variable (cache : CacheState) (needed : Nat)

/-- `statfs` shows less room than is needed. -/
def Short (sf : Option (Nat × Nat)) : Prop :=
  ∃ bsize bfree, sf = some (bsize, bfree) ∧ bsize * bfree < needed

/-- No `statfs` call that is made fails, and the loop only goes on to files
that are no symbolic links, and only where there is too little room. -/
def Honest : List Path → Nat → Prop
  | [], count => cache.free count ≠ none
  | path :: paths, count => cache.free count ≠ none ∧
      (freeBytes (cache.free count) < needed →
        Short needed (cache.free count) ∧ cache.target path = none ∧
          Honest paths (count + 1))

variable {cache needed}

theorem honest_iff {paths : List Path} {count : Nat} :
    Honest cache needed paths count ↔ ∀ k ≤ paths.length,
      (∀ i < k, freeBytes (cache.free (count + i)) < needed) →
        cache.free (count + k) ≠ none ∧
          ∀ path, paths[k]? = some path →
            freeBytes (cache.free (count + k)) < needed →
              Short needed (cache.free (count + k)) ∧
                cache.target path = none := by
  induction paths generalizing count with
  | nil =>
      constructor
      · intro hhonest k hk _
        cases Nat.le_zero.mp hk
        exact ⟨hhonest, by simp⟩
      · intro hall
        exact (hall 0 le_rfl (by simp)).1
  | cons path paths ih =>
      constructor
      · rintro ⟨hsome, hmore⟩ k hk hbefore
        cases k with
        | zero =>
            refine ⟨hsome, ?_⟩
            rintro other hother hfull
            cases hother
            exact ⟨(hmore hfull).1, (hmore hfull).2.1⟩
        | succ k =>
            have hfull := hbefore 0 (Nat.succ_pos k)
            have hrest := ih.mp (hmore hfull).2.2 k
              (Nat.le_of_succ_le_succ hk) fun i hi => by
                have hlater := hbefore (i + 1) (Nat.succ_lt_succ hi)
                rwa [← Nat.add_assoc, Nat.add_right_comm] at hlater
            rwa [Nat.add_right_comm, Nat.add_assoc] at hrest
      · intro hall
        have hfirst := hall 0 (Nat.zero_le _) (by simp)
        refine ⟨hfirst.1, fun hfull => ?_⟩
        have hnow := hfirst.2 path rfl hfull
        refine ⟨hnow.1, hnow.2, ih.mpr ?_⟩
        intro k hk hbefore
        have hrest := hall (k + 1) (Nat.succ_le_succ hk) ?_
        · rwa [Nat.add_right_comm, Nat.add_assoc]
        · intro i hi
          cases i with
          | zero => exact hfull
          | succ i =>
              have hlater := hbefore i (Nat.lt_of_succ_lt_succ hi)
              rwa [Nat.add_right_comm, Nat.add_assoc] at hlater

theorem Short.fits {sf : Option (Nat × Nat)} (hshort : Short needed sf)
    (deed : Deed) : Deed.Fits needed (.measured sf) deed := by
  obtain ⟨bsize, bfree, rfl, hlt⟩ := hshort
  cases deed with
  | measured sf => trivial
  | unlinked path => exact hlt

/-- Nothing is deleted behind this `statfs` call. -/
theorem freesSpace_last (hneeded : needed < 2 ^ 32)
    (sf : Option (Nat × Nat)) :
    FreesSpace cache needed (decide (needed ≤ freeBytes sf))
      [.measured sf] ↔ sf ≠ none := by
  constructor
  · rintro hfrees rfl
    have hlarge : needed ≤ freeBytes none := Nat.le_sub_one_of_lt hneeded
    obtain ⟨bsize, bfree, hlast, -⟩ := hfrees.room (decide_eq_true hlarge)
    cases hlast
  · intro hsome
    obtain ⟨⟨bsize, bfree⟩, rfl⟩ := Option.ne_none_iff_exists'.mp hsome
    refine ⟨?_, by simp, List.pairwise_singleton _ _⟩
    intro hok
    refine ⟨bsize, bfree, rfl, (of_decide_eq_true hok).trans ?_⟩
    exact Nat.mod_le _ _

/-- A pass of the loop. -/
theorem freesSpace_cons {ok : Bool} {sf sf' : Option (Nat × Nat)}
    {path : Path} {log : List Deed}
    (hpath : cache.Deletable path ↔ cache.target path = none)
    (hsome : sf ≠ none) :
    FreesSpace cache needed ok
        (.measured sf :: .unlinked path :: .measured sf' :: log) ↔
      Short needed sf ∧ cache.target path = none ∧
        FreesSpace cache needed ok (.measured sf' :: log) := by
  constructor
  · intro hfrees
    obtain ⟨hfirst, hrest⟩ := List.pairwise_cons.mp hfrees.fits
    obtain ⟨-, hrest⟩ := List.pairwise_cons.mp hrest
    have hshort : Short needed sf := by
      obtain ⟨⟨bsize, bfree⟩, rfl⟩ := Option.ne_none_iff_exists'.mp hsome
      exact ⟨bsize, bfree, rfl, hfirst _ List.mem_cons_self⟩
    refine ⟨hshort, hpath.mp (hfrees.deletable path (by simp)), ?_⟩
    refine ⟨?_, ?_, hrest⟩
    · intro hok
      obtain ⟨bsize, bfree, hlast, hroom⟩ := hfrees.room hok
      rw [List.getLast?_cons_cons, List.getLast?_cons_cons] at hlast
      exact ⟨bsize, bfree, hlast, hroom⟩
    · intro other hmem
      exact hfrees.deletable other
        (List.mem_cons_of_mem _ (List.mem_cons_of_mem _ hmem))
  · rintro ⟨hshort, htarget, hfrees⟩
    refine ⟨?_, ?_, ?_⟩
    · intro hok
      obtain ⟨bsize, bfree, hlast, hroom⟩ := hfrees.room hok
      refine ⟨bsize, bfree, ?_, hroom⟩
      rw [List.getLast?_cons_cons, List.getLast?_cons_cons, hlast]
    · intro other hmem
      simp only [List.mem_cons, Deed.unlinked.injEq, reduceCtorEq, false_or]
        at hmem
      rcases hmem with rfl | hmem
      · exact hpath.mpr htarget
      · exact hfrees.deletable other (List.mem_cons_of_mem _ hmem)
    · refine List.pairwise_cons.mpr ⟨fun deed _ => hshort.fits deed, ?_⟩
      exact List.pairwise_cons.mpr ⟨fun _ _ => trivial, hfrees.fits⟩

theorem freesSpace_iff_honest (hneeded : needed < 2 ^ 32)
    {paths : List Path} (hpaths : ∀ path ∈ paths,
      cache.Deletable path ↔ cache.target path = none) (count : Nat) :
    FreesSpace cache needed
        (decide (needed ≤ freeBytes (cache.free
          (lastCount cache needed paths count))))
        (.measured (cache.free count) :: deeds cache needed paths count) ↔
      Honest cache needed paths count := by
  induction paths generalizing count with
  | nil => exact freesSpace_last hneeded _
  | cons path paths ih =>
      rw [deeds, lastCount, Honest]
      by_cases hfull : freeBytes (cache.free count) < needed
      · have hsome : cache.free count ≠ none := by
          intro hnone
          rw [hnone] at hfull
          exact absurd hfull (Nat.not_lt.mpr (Nat.le_sub_one_of_lt hneeded))
        have hrest := ih (fun other hmem =>
          hpaths other (List.mem_cons_of_mem _ hmem)) (count + 1)
        rw [if_pos hfull, if_pos hfull, freesSpace_cons
          (hpaths path List.mem_cons_self) hsome, hrest]
        exact ⟨fun h => ⟨hsome, fun _ => h⟩, fun h => h.2 hfull⟩
      · rw [if_neg hfull, if_neg hfull, freesSpace_last hneeded]
        exact ⟨fun h => ⟨h, fun hless => absurd hless hfull⟩, fun h => h.1⟩

end Honest

/-- `MakeFreeSpaceOnCache` does what it is for if and only if no `statfs` call
that it makes fails, no figure that looks too small is one that has lost its
upper half, and no file it goes on to is a symbolic link. -/
theorem makeFreeSpaceOnCache_iff (cache : CacheState) (needed : UInt32) :
    ∃ ok log count, (makeFreeSpaceOnCache needed.toNat).advance cache.answers
        ([], 0) = (Prog.ret ok, log, count) ∧
      (FreesSpace cache needed.toNat ok log ↔
        ∀ k ≤ cache.candidates.length,
          (∀ i < k, freeBytes (cache.free i) < needed.toNat) →
            cache.free k ≠ none ∧
              ∀ path, cache.candidates[k]? = some path →
                freeBytes (cache.free k) < needed.toNat →
                  Short needed.toNat (cache.free k) ∧
                    cache.target path = none) := by
  refine ⟨_, _, _, advance_makeFreeSpaceOnCache, ?_⟩
  rw [freesSpace_iff_honest needed.toNat_lt
    (fun path => CacheState.deletable_iff) 0, honest_iff]
  simp only [Nat.zero_add]

namespace FreeSpaceWitness

/-- An empty `/cache` whose `statfs` fails. -/
def broken : CacheState where
  listing _ := none
  info _ := none
  target _ := none
  removes _ := true
  free _ := none
  plain := by
    intro dir names name hlist
    cases hlist

/-- The failure is taken for plenty of room. -/
theorem failed_statfs_is_room : ∃ ok log count,
    (makeFreeSpaceOnCache 1024).advance broken.answers ([], 0) =
        (Prog.ret ok, log, count) ∧ ok = true ∧
      log = [.measured none] ∧ ¬ FreesSpace broken 1024 ok log := by
  refine ⟨_, _, _, rfl, by decide, rfl, ?_⟩
  intro hfrees
  obtain ⟨bsize, bfree, hlast, -⟩ := hfrees.room (by decide)
  cases hlast

end FreeSpaceWitness

end ApplyPatch

end MetaOS
