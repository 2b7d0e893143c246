/-
minzip/Zip.c: the early exit of `mzExtractRecursive`.

The entries are sorted, and the names that start with one prefix stand next to
each other in that order.  The loop that gives up after the last of them takes
the entries that a filter over the whole list would keep.  What a run makes is
read off its calls.
-/
import MetaOS.ZipExtract
import MetaOS.ZipOrder

namespace MetaOS

namespace MinZip

open SortedInsertion

/-- What lies between two byte strings with a common prefix has it, too. -/
theorem prefix_of_between {common first between last : Bytes}
    (hfirst : common <+: first) (hlast : common <+: last)
    (hlow : first ≤ between) (hhigh : between ≤ last) :
    common <+: between := by
  induction common generalizing first between last with
  | nil => exact List.nil_prefix
  | cons a common ih =>
      obtain ⟨first, rfl, hbelow⟩ := List.cons_prefix_iff.mp hfirst
      obtain ⟨last, rfl, habove⟩ := List.cons_prefix_iff.mp hlast
      cases between with
      | nil => exact absurd hlow (by simp)
      | cons b between =>
          rw [List.cons_le_cons_iff] at hlow hhigh
          obtain hlt | ⟨rfl, hlow⟩ := hlow
          · obtain hgt | ⟨rfl, -⟩ := hhigh
            · exact absurd hgt (Std.not_lt.mpr (Std.le_of_lt hlt))
            · exact absurd hlt Std.lt_irrefl
          · obtain hlt | ⟨-, hhigh⟩ := hhigh
            · exact absurd hlt Std.lt_irrefl
            · exact List.cons_prefix_cons.mpr
                ⟨rfl, ih hbelow habove hlow hhigh⟩

/-- The entries that are asked for: those in `zipDir`, or all. -/
def isUnder (zipDir : Bytes) (entry : ZipEntry) : Bool :=
  decide (zipDir = []) || (withSlash zipDir).isPrefixOf entry.fileName

theorem isUnder_iff (zipDir : Bytes) (entry : ZipEntry) :
    isUnder zipDir entry = true ↔ canonicalPath zipDir <+: entry.fileName := by
  unfold isUnder canonicalPath
  by_cases hempty : zipDir = []
  · simp [hempty]
  · simp [hempty]

section Loops

variable (env : Surroundings) (args : ExtractArgs)

/-- The loop without a look at the names, which only a failure leaves. -/
def extractAll : List ZipEntry → MzPathHelper → (processed : List ZipEntry) →
    ZipProg (Option Walk)
  | [], _, processed => pure (some ⟨.fine, processed⟩)
  | entry :: rest, helper, processed => do
      match ← extractEntry env args helper entry with
      | none => pure none
      | some (.fine, helper) => extractAll rest helper (processed ++ [entry])
      | some (v, _) => pure (some ⟨v, processed ++ [entry]⟩)

variable {args}

/-- The two comparisons are one. -/
theorem extractEntries_of_mismatch {entry : ZipEntry}
    (hnot : ¬canonicalPath args.zipDir <+: entry.fileName)
    (rest : List ZipEntry) (helper : MzPathHelper) (seenMatch : Bool)
    (processed : List ZipEntry) :
    extractEntries env args (entry :: rest) helper seenMatch processed =
      if seenMatch then pure (some ⟨.fine, processed⟩)
      else extractEntries env args rest helper seenMatch processed := by
  rw [extractEntries]
  split
  next => rfl
  next =>
    rw [if_pos]
    intro htake
    exact hnot (htake ▸ List.take_prefix _ _)

theorem extractEntries_of_match {entry : ZipEntry}
    (hmatch : canonicalPath args.zipDir <+: entry.fileName)
    (rest : List ZipEntry) (helper : MzPathHelper) (seenMatch : Bool)
    (processed : List ZipEntry) :
    extractEntries env args (entry :: rest) helper seenMatch processed =
      extractEntry env args helper entry >>= fun r =>
        match r with
        | none => pure none
        | some (.fine, helper) =>
            extractEntries env args rest helper true (processed ++ [entry])
        | some (v, _) => pure (some ⟨v, processed ++ [entry]⟩) := by
  have htake := List.prefix_iff_eq_take.mp hmatch
  rw [extractEntries, if_neg (Nat.not_lt.mpr hmatch.length_le)]
  exact if_neg (not_not.mpr htake.symm)

/-- After a match, `seen` is a name with the prefix that no entry to come is
below. -/
theorem extractEntries_eq {entries : List ZipEntry} {seenMatch : Bool}
    (hsorted : Sorted ZipEntry.fileName entries)
    (hseen : seenMatch = true → ∃ seen, canonicalPath args.zipDir <+: seen ∧
      ∀ entry ∈ entries, seen ≤ entry.fileName)
    (helper : MzPathHelper) (processed : List ZipEntry) :
    extractEntries env args entries helper seenMatch processed =
      extractAll env args (entries.filter (isUnder args.zipDir)) helper
        processed := by
  induction entries generalizing seenMatch helper processed with
  | nil => rfl
  | cons entry rest ih =>
      obtain ⟨hbefore, hrest⟩ := List.pairwise_cons.mp hsorted
      by_cases hmatch : canonicalPath args.zipDir <+: entry.fileName
      · have hkept := (isUnder_iff args.zipDir entry).mpr hmatch
        rw [extractEntries_of_match env hmatch,
          List.filter_cons_of_pos hkept, extractAll]
        congr 1
        funext r
        match r with
        | none => rfl
        | some (.fine, helper) =>
            exact ih hrest (fun _ => ⟨_, hmatch, hbefore⟩) _ _
        | some (.failed, _) => rfl
        | some (.lost, _) => rfl
      · have hdropped := mt (isUnder_iff args.zipDir entry).mp hmatch
        rw [extractEntries_of_mismatch env hmatch,
          List.filter_cons_of_neg hdropped]
        cases seenMatch with
        | false => exact ih hrest (fun h => by cases h) _ _
        | true =>
            obtain ⟨seen, hpre, hle⟩ := hseen rfl
            have hnone : rest.filter (isUnder args.zipDir) = [] := by
              apply List.filter_eq_nil_iff.mpr
              intro later hlater hunder
              apply hmatch
              apply prefix_of_between hpre
                ((isUnder_iff args.zipDir later).mp hunder)
              · exact hle entry List.mem_cons_self
              · exact hbefore later hlater
            rw [if_pos rfl, hnone, extractAll]

/-- The loop takes the entries in their order, and if none fails all. -/
theorem extractAll_processed (entries : List ZipEntry)
    (helper : MzPathHelper) (processed : List ZipEntry) :
    (extractAll env args entries helper processed).Yields fun r =>
      ∀ walk, r = some walk → ∃ taken, taken <+: entries ∧
        walk.processed = processed ++ taken ∧
        (walk.verdict = .fine → taken = entries) := by
  induction entries generalizing helper processed with
  | nil =>
      rw [extractAll]
      intro walk hsome
      cases hsome
      exact ⟨[], List.nil_prefix, by simp, fun _ => rfl⟩
  | cons entry rest ih =>
      rw [extractAll]
      have hlast : ∀ v : Verdict, v ≠ .fine → ∀ walk : Walk,
          some ⟨v, processed ++ [entry]⟩ = some walk →
          ∃ taken, taken <+: entry :: rest ∧
            walk.processed = processed ++ taken ∧
            (walk.verdict = .fine → taken = entry :: rest) := by
        intro v hv walk hsome
        cases hsome
        exact ⟨[entry], List.prefix_append [entry] rest, rfl,
          fun hfine => absurd hfine hv⟩
      apply (Prog.yields_true _).bind
      intro r _
      match r with
      | none => exact fun walk hsome => by cases hsome
      | some (.fine, helper) =>
          apply (ih helper (processed ++ [entry])).mono
          intro r hr walk hsome
          obtain ⟨taken, hpre, hprocessed, hall⟩ := hr walk hsome
          refine ⟨entry :: taken, ?_, ?_, fun hfine => ?_⟩
          · exact List.cons_prefix_cons.mpr ⟨rfl, hpre⟩
          · rw [hprocessed, List.append_assoc]
            rfl
          · rw [hall hfine]
      | some (.failed, _) => exact hlast .failed (by decide)
      | some (.lost, _) => exact hlast .lost (by decide)

end Loops

/-- The path of an entry in the target directory. -/
def targetPath (args : ExtractArgs) (entry : ZipEntry) : Bytes :=
  withSlash args.targetDir ++
    entry.fileName.drop (canonicalPath args.zipDir).length

/-- All paths start with the target directory. -/
def MzPathHelper.Rooted (args : ExtractArgs) (helper : MzPathHelper) : Prop :=
  helper.buf.getD (withSlash args.targetDir) = withSlash args.targetDir

/-- What can be made under a path, or said of it to the caller. -/
inductive Mark where
  | dir (path : Bytes)
  | link (path : Bytes)
  | file (path : Bytes)
  | callback (path : Bytes)
deriving DecidableEq

/-- The directories that lead to a file are no marks of their own. -/
def Call.mark : Call → Option Mark
  | dirCreateHierarchy path false => some (.dir path)
  | symlink _ path => some (.link path)
  | creat path => some (.file path)
  | callback path => some (.callback path)
  | _ => none

def marks (calls : List ((c : Call) × Answer c)) : List Mark :=
  calls.filterMap fun x => x.1.mark

/-- An error is logged or memory is refused. -/
def isFault : (c : Call) × Answer c → Bool
  | ⟨.logError _, _⟩ => true
  | ⟨.allocate _, granted⟩ => !granted
  | _ => false

def Faulty (calls : List ((c : Call) × Answer c)) : Prop :=
  ∃ x ∈ calls, isFault x = true

instance (calls : List ((c : Call) × Answer c)) : Decidable (Faulty calls) :=
  inferInstanceAs (Decidable (∃ x ∈ calls, isFault x = true))

/-- What the flags ask to be made for an entry. -/
def madeFor (env : Surroundings) (args : ExtractArgs) (entry : ZipEntry) :
    List Mark :=
  let path := targetPath args entry
  if args.dryRun then []
  else if isDirectory env entry then
    if args.filesOnly then [] else [.dir path]
  else if !args.filesOnly && mzIsZipEntrySymlink entry then [.link path]
  else [.file path]

/-- What is made for an entry, and the call that tells the caller. -/
def asked (env : Surroundings) (args : ExtractArgs) (entry : ZipEntry) :
    List Mark :=
  madeFor env args entry ++
    if args.callback then [.callback (targetPath args entry)] else []

section Runs

variable {α : Type} {calls rest : List ((c : Call) × Answer c)}
  {target target' : List Mark} {env : Surroundings} {args : ExtractArgs}
  {entry : ZipEntry} {path : Bytes}

theorem marks_append : marks (calls ++ rest) = marks calls ++ marks rest :=
  List.filterMap_append

theorem Faulty.append_left (h : Faulty calls) : Faulty (calls ++ rest) := by
  obtain ⟨x, hx, hfault⟩ := h
  exact ⟨x, List.mem_append_left rest hx, hfault⟩

theorem Faulty.append_right (h : Faulty rest) : Faulty (calls ++ rest) := by
  obtain ⟨x, hx, hfault⟩ := h
  exact ⟨x, List.mem_append_right calls hx, hfault⟩

/-- A part of a run that leaves the marks `target`, or some of them and a
fault. -/
structure Leaves (target : List Mark) (calls : List ((c : Call) × Answer c))
    (verdict : Option Verdict) : Prop where
  started : marks calls <+: target
  fine : verdict = some .fine → marks calls = target
  fault : verdict = some .failed ∨ verdict = some .lost → Faulty calls

/-- A whole run makes what `target` says, unless it does not come to an end or
there is a fault. -/
structure Extracts (target : List Mark)
    (calls : List ((c : Call) × Answer c)) (r : Option Bool) : Prop where
  started : marks calls <+: target
  ended : r.isSome → ¬Faulty calls → r = some true ∧ marks calls = target

namespace Leaves

variable {verdict : Option Verdict}

theorem nothing : Leaves [] [] (some .fine) :=
  ⟨List.prefix_rfl, fun _ => rfl, by simp⟩

theorem one {c : Call} {mark : Mark} {r : Answer c}
    (hmark : c.mark = some mark) :
    Leaves [mark] [⟨c, r⟩] (some .fine) := by
  have hmarks : marks [⟨c, r⟩] = [mark] := by simp [marks, hmark]
  exact ⟨hmarks ▸ List.prefix_rfl, fun _ => hmarks, by simp⟩

/-- The run has not come to an end. -/
theorem endless : Leaves target [] none :=
  ⟨List.nil_prefix, by simp, by simp⟩

theorem failed {v : Verdict} (hmarks : marks calls = [])
    (hfault : Faulty calls) (hv : v ≠ .fine) :
    Leaves target calls (some v) :=
  ⟨hmarks ▸ List.nil_prefix, fun hfine => absurd (Option.some.inj hfine) hv,
    fun _ => hfault⟩

theorem append (hfirst : Leaves target calls (some .fine))
    (hrest : Leaves target' rest verdict) :
    Leaves (target ++ target') (calls ++ rest) verdict := by
  have hmarks := hfirst.fine rfl
  refine ⟨?_, fun hfine => ?_, fun hbad => (hrest.fault hbad).append_right⟩
  · rw [marks_append, hmarks]
    exact (List.prefix_append_right_inj target).mpr hrest.started
  · rw [marks_append, hmarks, hrest.fine hfine]

/-- What comes behind a part that has failed is left out. -/
theorem extend (h : Leaves target calls verdict) (hbad : verdict ≠ some .fine) :
    Leaves (target ++ target') calls verdict :=
  ⟨h.started.trans (List.prefix_append _ _), fun hfine => absurd hfine hbad,
    h.fault⟩

/-- Calls that leave no marks come first. -/
theorem silent (hsilent : marks calls = []) (h : Leaves target rest verdict) :
    Leaves target (calls ++ rest) verdict := by
  have hmarks : marks (calls ++ rest) = marks rest := by
    rw [marks_append, hsilent, List.nil_append]
  exact ⟨hmarks ▸ h.started, fun hfine => hmarks ▸ h.fine hfine,
    fun hbad => (h.fault hbad).append_right⟩

end Leaves

/-- No call leaves a mark. -/
abbrev Silent (prog : ZipProg α) : Prop := prog.Issues fun c => c.mark = none

theorem Silent.traced {prog : ZipProg α} (hprog : Silent prog) :
    prog.Traced fun calls _ => marks calls = [] := by
  apply (Prog.Issues.traced hprog).mono
  intro calls _ hcalls
  exact List.filterMap_eq_nil_iff.mpr hcalls

theorem Silent.leaves {prog : ZipProg α} {f : α → ZipProg (Option Verdict)}
    (hprog : Silent prog) (hnext : ∀ value, (f value).Traced (Leaves target)) :
    (prog >>= f).Traced (Leaves target) := by
  apply hprog.traced.bind
  intro calls value hmarks
  exact (hnext value).mono fun rest v h => h.silent hmarks

theorem leaves_after {c : Call} (hc : c.mark = none) (r : Answer c)
    {prog : ZipProg (Option Verdict)} (hprog : prog.Traced (Leaves target)) :
    prog.Traced fun rest v => Leaves target (⟨c, r⟩ :: rest) v := by
  have hsilent : marks [⟨c, r⟩] = [] := by simp [marks, hc]
  exact hprog.mono fun rest v h => h.silent hsilent

theorem leaves_mark {c : Call} {mark : Mark}
    {next : Answer c → ZipProg (Option Verdict)} (hmark : c.mark = some mark)
    (hnext : ∀ r, (next r).Traced (Leaves target)) :
    (Prog.call c next).Traced (Leaves (mark :: target)) := by
  intro r
  apply (hnext r).mono
  intro rest v hrest
  exact (Leaves.one hmark).append hrest

theorem refill_silent {lib : Decoder} (stack : Bytes) (z : ZStream lib)
    (compRemaining : Int) : Silent (refill stack z compRemaining) := by
  rw [refill]
  apply Prog.Issues.ite
  · trivial
  refine ⟨rfl, fun r => ?_⟩
  cases r with
  | none => exact Prog.Issues.ite trivial trivial
  | some data => exact Prog.Issues.ite trivial trivial

section Contents

variable {σ : Type} {process : ProcessFunction σ}
  (hprocess : ∀ cookie data, Silent (process cookie data))

include hprocess

theorem storedLoop_silent (rounds bytesLeft : Nat) (cookie : σ) :
    Silent (storedLoop process rounds bytesLeft cookie) := by
  induction rounds generalizing bytesLeft cookie with
  | zero => trivial
  | succ rounds ih =>
      rw [storedLoop]
      apply Prog.Issues.ite
      · trivial
      refine ⟨rfl, fun r => ?_⟩
      cases r with
      | none => trivial
      | some data =>
          apply Prog.Issues.ite
          · trivial
          apply (hprocess cookie data).bind
          intro answer
          apply Prog.Issues.ite
          · exact ih _ _
          · trivial

theorem inflateLoop_silent {lib : Decoder} (stack : Bytes) (rounds : Nat)
    (z : ZStream lib) (compRemaining : Int) (cookie : σ) :
    Silent (inflateLoop process stack rounds z compRemaining cookie) := by
  induction rounds generalizing z compRemaining cookie with
  | zero => trivial
  | succ rounds ih =>
      rw [inflateLoop]
      apply (refill_silent stack z compRemaining).bind
      intro r
      cases r with
      | none => trivial
      | some filled =>
          dsimp only
          split
          next => trivial
          next =>
            apply Prog.Issues.ite
            · apply (hprocess _ _).bind
              intro answer
              exact Prog.Issues.ite (ih _ _ _) trivial
            · exact ih _ _ _
          next =>
            apply Prog.Issues.ite
            · apply (hprocess _ _).bind
              intro answer
              exact Prog.Issues.ite trivial trivial
            · trivial

theorem processEntry_silent (stack : Bytes) (rounds : Nat) (lib : Decoder)
    (entry : ZipEntry) (cookie : σ) :
    Silent (processEntry process stack rounds lib entry cookie) := by
  rw [processEntry]
  apply Prog.Issues.ite
  · apply (storedLoop_silent hprocess _ _ cookie).bind
    exact fun r => trivial
  apply Prog.Issues.ite
  · refine ⟨rfl, fun granted => ?_⟩
    apply Prog.Issues.ite
    · apply (inflateLoop_silent hprocess stack rounds _ _ cookie).bind
      intro r
      cases r with
      | none => trivial
      | some answer => trivial
    · trivial
  · trivial

theorem mzProcessZipEntryContents_silent (stack : Bytes) (rounds : Nat)
    (lib : Decoder) (entry : ZipEntry) (cookie : σ) :
    Silent (mzProcessZipEntryContents process stack rounds lib entry
      cookie) := by
  refine ⟨rfl, fun oldOff => ⟨rfl, fun _ => ?_⟩⟩
  apply (processEntry_silent hprocess stack rounds lib entry cookie).bind
  intro r
  cases r with
  | none => trivial
  | some answer => exact ⟨rfl, fun _ => trivial⟩

end Contents

theorem mzReadZipEntry_silent (room : Int) :
    Silent (mzReadZipEntry env.stack env.calls env.lib entry room) := by
  have hcopy : ∀ (cookie : Bytes × Int) (data : Bytes),
      Silent (copyProcessFunction cookie data) := by
    intro cookie data
    exact Prog.Issues.ite trivial trivial
  apply (mzProcessZipEntryContents_silent hcopy _ _ _ entry _).bind
  intro r
  cases r with
  | none => trivial
  | some answer => trivial

theorem writeLoop_silent (fd rounds : Nat) (data : Bytes) :
    Silent (writeLoop fd rounds data) := by
  induction rounds generalizing data with
  | zero => trivial
  | succ rounds ih =>
      refine ⟨rfl, fun r => ?_⟩
      cases r with
      | none => trivial
      | some n =>
          apply Prog.Issues.ite
          · trivial
          apply Prog.Issues.ite
          · trivial
          exact Prog.Issues.ite trivial (ih _)

theorem mzExtractZipEntryToFile_silent (fd : Nat) :
    Silent (mzExtractZipEntryToFile env.stack env.calls env.lib entry
      fd) := by
  have hwrite : ∀ (fd : Nat) (data : Bytes),
      Silent (writeProcessFunction fd data) := by
    intro fd data
    exact (writeLoop_silent fd _ data).bind fun ret => trivial
  apply (mzProcessZipEntryContents_silent hwrite _ _ _ entry _).bind
  intro r
  cases r with
  | none => trivial
  | some answer => trivial

/-- A message is no mark, but a fault. -/
theorem logFailure_leaves (message : String) :
    (logFailure message).Traced fun calls v => Leaves target calls (some v) :=
  fun _ => .failed rfl ⟨_, List.mem_cons_self, rfl⟩ (by decide)

theorem leaves_some {prog : ZipProg Verdict}
    (hprog : prog.Traced fun calls v => Leaves target calls (some v)) :
    (prog >>= fun v => (pure (some v) : ZipProg (Option Verdict))).Traced
      (Leaves target) := by
  apply hprog.bind
  intro calls v hleaves
  rw [Prog.pure_eq_ret, Prog.Traced, List.append_nil]
  exact hleaves

theorem leaves_logged (message : String) :
    (logFailure message >>= fun v =>
      (pure (some v) : ZipProg (Option Verdict))).Traced (Leaves target) :=
  leaves_some (logFailure_leaves message)

theorem extractDirectory_leaves :
    (extractDirectory args path >>= fun v =>
      (pure (some v) : ZipProg (Option Verdict))).Traced
      (Leaves (if args.filesOnly then [] else [.dir path])) := by
  rw [extractDirectory]
  split
  next => exact .nothing
  next =>
    apply leaves_mark rfl
    intro created
    cases created with
    | true => exact .nothing
    | false => exact leaves_logged _

theorem extractSymlink_leaves :
    (extractSymlink env entry path).Traced (Leaves [.link path]) := by
  rw [extractSymlink]
  split
  next => exact leaves_logged _
  next =>
    intro granted
    cases granted with
    | false => exact .failed rfl ⟨_, List.mem_cons_self, rfl⟩ (by decide)
    | true =>
        apply leaves_after rfl
        apply (mzReadZipEntry_silent entry.uncompLen).leaves
        intro r
        rcases r with _ | ⟨ok, copied⟩
        · exact .endless
        cases ok with
        | false => exact leaves_logged _
        | true =>
            apply leaves_mark rfl
            intro linked
            cases linked with
            | false => exact leaves_logged _
            | true => exact .nothing

theorem extractFile_leaves :
    (extractFile env args entry path).Traced (Leaves [.file path]) := by
  rw [extractFile]
  apply leaves_mark rfl
  intro fd
  cases fd with
  | none => exact leaves_logged _
  | some fd =>
      apply (mzExtractZipEntryToFile_silent fd).leaves
      intro r
      cases r with
      | none => exact .endless
      | some ok =>
          apply Silent.leaves (Prog.issues_perform rfl)
          intro _
          have hlost (message : String) : (Prog.perform
              (Call.logError message) >>= fun _ =>
                (pure (some .lost) : ZipProg (Option Verdict))).Traced
              (Leaves []) := fun _ =>
            .failed rfl ⟨_, List.mem_cons_self, rfl⟩ (by decide)
          cases ok with
          | false => exact hlost _
          | true =>
              rw [if_pos rfl]
              split
              next =>
                apply Silent.leaves (Prog.issues_perform rfl)
                intro touched
                cases touched with
                | false => exact hlost _
                | true => exact .nothing
              next => exact .nothing

theorem createEntry_leaves (hwet : args.dryRun = false) :
    (createEntry env args entry (targetPath args entry)).Traced
      (Leaves (madeFor env args entry)) := by
  rw [createEntry, madeFor, hwet, if_neg Bool.false_ne_true]
  split
  next => exact extractDirectory_leaves
  next =>
    apply Silent.leaves (Prog.issues_perform rfl)
    intro parent
    cases parent with
    | false => exact leaves_logged _
    | true =>
        rw [if_pos rfl]
        split
        next => exact extractSymlink_leaves
        next => exact extractFile_leaves

theorem targetEntryPath_traced {helper : MzPathHelper}
    (hroot : helper.Rooted args) (entry : ZipEntry) :
    (targetEntryPath args helper entry).Traced fun calls r =>
      marks calls = [] ∧ ∀ path helper', r = some (path, helper') →
        path = targetPath args entry ∧ helper'.Rooted args := by
  have hpath (granted : Bool) (bufLen : Nat) :
      (if granted then
          let root := helper.buf.getD (withSlash args.targetDir)
          pure (some (root ++
            entry.fileName.drop (canonicalPath args.zipDir).length,
            (⟨root.length, some root, bufLen⟩ : MzPathHelper)))
        else (pure none : ZipProg (Option (Bytes × MzPathHelper)))).Traced
        fun calls r => calls = [] ∧ ∀ path helper',
          r = some (path, helper') →
            path = targetPath args entry ∧ helper'.Rooted args := by
    cases granted with
    | false => exact ⟨rfl, fun _ _ hsome => by cases hsome⟩
    | true =>
        refine ⟨rfl, ?_⟩
        intro path helper' hsome
        cases hsome
        rw [hroot]
        exact ⟨rfl, rfl⟩
  rw [targetEntryPath]
  dsimp only
  split
  next =>
    intro granted
    apply (hpath granted _).mono
    rintro calls r ⟨rfl, hr⟩
    exact ⟨rfl, hr⟩
  next =>
    apply (hpath true _).mono
    rintro calls r ⟨rfl, hr⟩
    exact ⟨rfl, hr⟩

/-- The body of the loop, for an entry that matches. -/
theorem extractEntry_leaves {helper : MzPathHelper}
    (hroot : helper.Rooted args) (entry : ZipEntry) :
    (extractEntry env args helper entry).Traced fun calls r =>
      Leaves (asked env args entry) calls (r.map (·.1)) ∧
        ∀ v helper', r = some (v, helper') → helper'.Rooted args := by
  rw [extractEntry]
  apply (targetEntryPath_traced hroot entry).bind
  rintro calls r ⟨hsilent, hr⟩
  cases r with
  | none =>
      intro _
      have hfault : Leaves (asked env args entry)
          [⟨Call.logError "Can't assemble target path", ()⟩] (some .failed) :=
        .failed rfl ⟨_, List.mem_cons_self, rfl⟩ (by decide)
      refine ⟨hfault.silent hsilent, ?_⟩
      intro v helper' hsome
      cases hsome
      exact hroot
  | some found =>
      obtain ⟨path, helper'⟩ := found
      obtain ⟨rfl, hroot'⟩ := hr path helper' rfl
      have hmade : (if args.dryRun then pure (some .fine)
          else createEntry env args entry (targetPath args entry)).Traced
          (Leaves (madeFor env args entry)) := by
        split
        next hdry =>
          rw [madeFor, if_pos hdry]
          exact .nothing
        next hwet => exact createEntry_leaves (Bool.eq_false_iff.mpr hwet)
      refine Prog.Traced.mono ?_ fun rest r
        (h : Leaves (asked env args entry) rest (r.map (·.1)) ∧
          ∀ v last, r = some (v, last) → last.Rooted args) =>
          ⟨h.1.silent hsilent, h.2⟩
      apply hmade.bind
      intro made v hleaves
      have hstop (v : Option Verdict) (hbad : v ≠ some .fine)
          (h : Leaves (madeFor env args entry) made v) :
          Leaves (asked env args entry) (made ++ []) v := by
        rw [List.append_nil]
        exact h.extend hbad
      cases v with
      | none => exact ⟨hstop none (by decide) hleaves, by simp⟩
      | some v =>
          have hkept : ∀ v' last, some (v, helper') = some (v', last) →
              last.Rooted args := by
            intro v' last hsome
            cases hsome
            exact hroot'
          cases v with
          | fine =>
              dsimp only
              split
              next hcallback =>
                intro _
                refine ⟨?_, hkept⟩
                rw [asked, if_pos hcallback]
                exact hleaves.append (.one rfl)
              next hcallback =>
                refine ⟨?_, hkept⟩
                rw [asked, if_neg hcallback]
                exact hleaves.append .nothing
          | failed => exact ⟨hstop _ (by simp) hleaves, hkept⟩
          | lost => exact ⟨hstop _ (by simp) hleaves, hkept⟩

/-- One entry after the other, up to the first that fails. -/
theorem extractAll_leaves (entries : List ZipEntry) {helper : MzPathHelper}
    (hroot : helper.Rooted args) (processed : List ZipEntry) :
    (extractAll env args entries helper processed).Traced fun calls r =>
      Leaves (entries.flatMap (asked env args)) calls
        (r.map Walk.verdict) := by
  induction entries generalizing helper processed with
  | nil => exact .nothing
  | cons entry rest ih =>
      rw [extractAll, List.flatMap_cons]
      apply (extractEntry_leaves hroot entry).bind
      rintro calls r ⟨hleaves, hr⟩
      rcases r with _ | ⟨v, helper'⟩
      · rw [Prog.pure_eq_ret, Prog.Traced, List.append_nil]
        exact hleaves.extend (by decide)
      cases v with
      | fine =>
          apply (ih (hr .fine helper' rfl) _).mono
          intro rest r hrest
          exact hleaves.append hrest
      | failed =>
          change Leaves _ (calls ++ []) (some .failed)
          rw [List.append_nil]
          exact hleaves.extend (by simp)
      | lost =>
          change Leaves _ (calls ++ []) (some .lost)
          rw [List.append_nil]
          exact hleaves.extend (by simp)

/-- Both paths are as they should be. -/
theorem extractWith_of_accepted {loop : MzPathHelper → ZipProg (Option Walk)}
    (hrelative : args.zipDir.head? ≠ some slash)
    (habsolute : args.targetDir.head? = some slash) :
    extractWith args loop = (do
      if ← Prog.perform (Call.allocate (args.zipDir.length + 2)) then
        let r ← loop (.init args)
        pure (r.map fun walk => decide (walk.verdict ≠ .failed))
      else
        Prog.perform (Call.logError "Can't allocate bytes for zip path")
        pure (some false)) := by
  rw [extractWith, if_neg hrelative, if_neg (not_not.mpr habsolute)]
  congr 1
  funext granted
  cases granted with
  | false => rfl
  | true =>
      simp only [if_true]
      congr 1
      funext r
      cases r with
      | none => rfl
      | some walk => rfl

theorem extractWith_traced {loop : MzPathHelper → ZipProg (Option Walk)}
    (hloop : (loop (.init args)).Traced fun calls r =>
      Leaves target calls (r.map Walk.verdict)) :
    (extractWith args loop).Traced (Extracts target) := by
  have hrefused (message : String) :
      (Prog.perform (Call.logError message) >>= fun _ =>
        (pure (some false) : ZipProg (Option Bool))).Traced
        (Extracts target) := by
    refine fun _ => ⟨List.nil_prefix, fun _ hnot => absurd ?_ hnot⟩
    exact ⟨_, List.mem_cons_self, rfl⟩
  rw [extractWith]
  split
  next => exact hrefused _
  split
  next => exact hrefused _
  intro granted
  cases granted with
  | false =>
      refine fun _ => ⟨List.nil_prefix, fun _ hnot => absurd ?_ hnot⟩
      exact ⟨_, List.mem_cons_self, rfl⟩
  | true =>
      apply hloop.bind
      intro calls r hleaves
      have hmarks : marks (⟨Call.allocate (args.zipDir.length + 2), true⟩ ::
          (calls ++ [])) = marks calls := by
        simp [marks, Call.mark]
      cases r with
      | none => exact ⟨hmarks ▸ hleaves.started, by simp⟩
      | some walk =>
          have hfine (hnot : ¬Faulty calls) : walk.verdict = .fine := by
            cases hverdict : walk.verdict with
            | fine => rfl
            | failed => exact absurd (hleaves.fault (by simp [hverdict])) hnot
            | lost => exact absurd (hleaves.fault (by simp [hverdict])) hnot
          refine ⟨hmarks ▸ hleaves.started, fun _ hnot => ?_⟩
          have hclean : ¬Faulty calls := by
            rintro ⟨x, hx, hfault⟩
            exact hnot ⟨x, by simp [hx], hfault⟩
          have hverdict := hfine hclean
          have htrue : decide (walk.verdict ≠ .failed) = true := by
            rw [hverdict]
            decide
          refine ⟨congrArg some htrue, hmarks ▸ hleaves.fine ?_⟩
          rw [Option.map_some, hverdict]

end Runs

/-- The entries in `zipDir` are extracted in their order, each once, as if
there were no early exit.  What a run makes belongs to the first of them, and
to all of them if there is no fault. -/
theorem extracts_filtered {map : MemMapping} {archive : ZipArchive}
    (hparse : parseZipArchive map = some archive) (env : Surroundings)
    (args : ExtractArgs) :
    let matching := archive.pEntries.filter (isUnder args.zipDir)
    Sorted ZipEntry.fileName matching ∧
      (args.zipDir.head? ≠ some slash → args.targetDir.head? = some slash →
        mzExtractRecursive env args archive = do
          if ← Prog.perform (Call.allocate (args.zipDir.length + 2)) then
            let r ← extractAll env args matching (.init args) []
            pure (r.map fun walk => decide (walk.verdict ≠ .failed))
          else
            Prog.perform (Call.logError "Can't allocate bytes for zip path")
            pure (some false)) ∧
      (∀ helper,
        (extractEntries env args archive.pEntries helper false []).Yields
          fun r => ∀ walk, r = some walk →
            walk.processed <+: matching ∧
              (walk.verdict = .fine → walk.processed = matching)) ∧
      (mzExtractRecursive env args archive).Traced
        (Extracts (matching.flatMap (asked env args))) := by
  intro matching
  obtain ⟨records, -, -, harranged, -⟩ := parseZipArchive_arranged hparse
  have hloop : ∀ helper,
      extractEntries env args archive.pEntries helper false [] =
        extractAll env args matching helper [] := by
    intro helper
    exact extractEntries_eq env harranged.sorted (fun h => by cases h)
      helper []
  refine ⟨harranged.sorted.filter _, ?_, ?_, ?_⟩
  · intro hrelative habsolute
    rw [mzExtractRecursive, funext hloop,
      extractWith_of_accepted hrelative habsolute]
  · intro helper
    rw [hloop]
    apply (extractAll_processed env matching helper []).mono
    intro r hr walk hsome
    obtain ⟨taken, hpre, hprocessed, hall⟩ := hr walk hsome
    rw [hprocessed, List.nil_append]
    exact ⟨hpre, hall⟩
  · rw [mzExtractRecursive, funext hloop]
    have hroot : (MzPathHelper.init args).Rooted args := rfl
    exact extractWith_traced (extractAll_leaves matching hroot [])

namespace ZipWalkWitness

/-- A record of the directory, without data. -/
def recordOf (name : Bytes) : Bytes :=
  [0x50, 0x4b, 1, 2] ++ List.replicate 24 0 ++
    [UInt8.ofNat name.length, 0] ++ List.replicate 16 0 ++ name

/-- `e`, `d/b`, `d` and `d/a`. -/
def unsorted : MemMapping where
  addr := 0x40000000
  file :=
    [0x50, 0x4b, 3, 4] ++ List.replicate 26 0 ++
      (recordOf [101] ++ recordOf [100, 47, 98] ++ recordOf [100] ++
        recordOf [100, 47, 97]) ++
      ([0x50, 0x4b, 5, 6, 0, 0, 0, 0, 4, 0, 4, 0] ++
        [192, 0, 0, 0, 30, 0, 0, 0] ++ [0, 0])

def args : ExtractArgs := ⟨[100], [47, 116], 0, false, false⟩

/-- Nothing is compressed; the first byte of any data would be in error. -/
def decoder : Decoder where
  State := Unit
  init := ()
  decompress _ input _ := ⟨.error (-3), min 1 input.length, [], ()⟩
  taken_le _ input _ := Nat.min_le_right 1 input.length
  output_le _ _ room := Nat.zero_le room

def env : Surroundings := ⟨decoder, [], [], fun _ => 0, 0⟩

/-- No call fails. -/
def granting : (c : Call) → Unit → Answer c × Unit
  | .lseekCur, _ => (0, ())
  | .read _, _ => (some [], ())
  | .write _ data, _ => (some data.length, ())
  | .creat _, _ => (some 3, ())
  | .inflateInit, _ | .processFunction _, _ | .allocate _, _
  | .dirCreateHierarchy _ _, _ | .utime _, _ | .symlink _ _, _ => (true, ())
  | .lseekSet _, _ | .memmove _, _ | .close _, _ | .callback _, _
  | .logError _, _ => ((), ())

/-- Of four entries two are in the directory `d`, and these are made. -/
theorem two_of_four :
    ∃ archive, parseZipArchive unsorted = some archive ∧
      marks ((mzExtractRecursive env args archive).trace granting ()) =
        [.file [47, 116, 47, 97], .file [47, 116, 47, 98]] := by
  have hrun : (parseZipArchive unsorted).map (fun archive =>
      let run := mzExtractRecursive env args archive
      ((run.eval granting ()).1,
        decide (Faulty (run.trace granting ())),
        (archive.pEntries.filter (isUnder args.zipDir)).flatMap
          (asked env args))) =
      some (some true, false,
        [.file [47, 116, 47, 97], .file [47, 116, 47, 98]]) := by
    decide +kernel
  obtain ⟨archive, hparse, hrun⟩ := Option.map_eq_some_iff.mp hrun
  simp only [Prod.mk.injEq, decide_eq_false_iff_not] at hrun
  obtain ⟨htrue, hclean, hasked⟩ := hrun
  have hextracts := (extracts_filtered hparse env args).2.2.2
  have hended := (hextracts.run granting ()).ended
  refine ⟨archive, hparse, ?_⟩
  rw [(hended (by rw [htrue]; rfl) hclean).2]
  exact hasked

end ZipWalkWitness

end MinZip

end MetaOS
