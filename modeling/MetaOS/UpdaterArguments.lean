/-
bootable/recovery/updater/install.c: functions whose arguments are null.

The comment at the top of expr.c asks of every function that it returns a null
pointer if an argument evaluates to one.  Here this includes that the function
has no effect.  An argument is evaluated at most once, so one value for each
position stands for all that its evaluation can give.
-/
import MetaOS.UpdaterFunctions

namespace MetaOS

namespace Updater

open Edify CString Prog

/-- A pointer to a string, from `Evaluate`. -/
def string? : Option Value → Option Bytes
  | some (.string data) => some data
  | _ => none

/-- The values of the arguments, and what the calls outside answer. -/
structure Setting (S : Type) where
  value : Nat → Option Value
  span : Nat → Int × Int
  script : Bytes
  outside : (e : Outside) → S → e.Answer × S

variable {S : Type}

def Setting.handler (g : Setting S) :
    (c : Call Outside) → S → c.Answer Outside.Answer × S
  | .evaluate i, s => (string? (g.value i), s)
  | .evaluateValue i, s => (g.value i, s)
  | .span i, s => (g.span i, s)
  | .script, s => (g.script, s)
  | .errmsg _, s | .fputs _, s | .sleep _, s => ((), s)
  | .outside e, s => g.outside e s

/-- An argument is null. -/
def Fails : (c : Call Outside) → c.Answer Outside.Answer → Prop
  | .evaluate _, (r : Option Bytes) => r = none
  | .evaluateValue _, (r : Option Value) => r = none
  | _, _ => False

def IsEffect : Call Outside → Prop
  | .fputs _ | .sleep _ | .outside _ => True
  | _ => False

/-- If an argument that is evaluated is null, so is what the function returns,
and it has no effect. -/
def PropagatesFailure (g : Setting S) (s : S) (fn : Body Outcome) : Prop :=
  (∃ x ∈ fn.trace g.handler s, Fails x.1 x.2) →
    (fn.eval g.handler s).1 = null ∧
      ∀ x ∈ fn.trace g.handler s, ¬ IsEffect x.1

/-- The numbers of arguments a function is made for. -/
def InstallFn.Accepts (name : String) (argc : Nat) : InstallFn → Prop
  | MountFn => argc = 3
  | FormatFn | ShowProgressFn | PackageExtractDirFn | FileGetPropFn
  | WriteRawImageFn => argc = 2
  | IsMountedFn | UnmountFn | SetProgressFn | GetPropFn
  | ApplyPatchSpaceFn | ReadFileFn => argc = 1
  | PackageExtractFileFn => argc = 1 ∨ argc = 2
  | SymlinkFn | ApplyPatchCheckFn | Sha1CheckFn | RunProgramFn => 1 ≤ argc
  | SetPermFn => if name = "set_perm_recursive" then 5 ≤ argc else 4 ≤ argc
  | ApplyPatchFn => 6 ≤ argc ∧ argc % 2 = 0
  | DeleteFn | UIPrintFn => True

/-- Where a null argument is not handled: behind the first path to delete,
among the hashes and patches to apply, and among the hashes to check. -/
def InstallFn.Mishandles (argc : Nat) (value : Nat → Option Value) :
    InstallFn → Prop
  | DeleteFn | ApplyPatchCheckFn => string? (value 0) ≠ none ∧
      ∃ i < argc, string? (value i) = none
  | ApplyPatchFn => (∀ i < 4, string? (value i) ≠ none) ∧
      (string? (value 3)).bind byteCount ≠ none ∧
      ∃ i < argc, value i = none
  | _ => False

abbrev Heedful (fn : Body Outcome) : Prop := fn.Heeds Fails IsEffect null

theorem Heedful.propagates {fn : Body Outcome} (hfn : Heedful fn)
    (g : Setting S) (s : S) : PropagatesFailure g s fn := by
  apply hfn.run
  intro c r hfails
  cases c with
  | evaluate | evaluateValue => exact id
  | _ => exact hfails.elim

/-- The calls of an action are no evaluations. -/
theorem act_issues {α : Type} (action : Action α) :
    (act action).Issues fun c => ∀ r, ¬ Fails c r := by
  apply Issues.hoist
  rintro (message | e)
  · exact issues_perform fun _ => id
  · exact issues_perform fun _ => id

theorem act_heedful (action : Action Outcome) : Heedful (act action) :=
  Heeds.of_issues (act_issues action)

/-- A way to read an argument, after which the function goes on unless the
argument is null. -/
def Reads {α : Type} (read : Nat → Body (Option α)) : Prop :=
  ∀ (i : Nat) (k : Option α → Body Outcome), k none = ret null →
    (∀ arg, Heedful (k (some arg))) → Heedful (read i >>= k)

theorem answer_heedful {α : Type} {k : Option α → Body Outcome}
    (hnone : k none = ret null) (hsome : ∀ arg, Heedful (k (some arg)))
    (answer : Option α) :
    (answer = none → k answer = ret null) ∧ Heedful (k answer) := by
  cases answer with
  | none =>
      refine ⟨fun _ => hnone, ?_⟩
      rw [hnone]
      trivial
  | some arg =>
      exact ⟨fun hfails => (Option.some_ne_none arg hfails).elim, hsome arg⟩

theorem evaluate_reads : Reads (evaluate : Nat → Body (Option Bytes)) :=
  fun _ _ hnone hsome => ⟨False.elim, answer_heedful hnone hsome⟩

theorem evaluateValue_reads :
    Reads (evaluateValue : Nat → Body (Option Value)) :=
  fun _ _ hnone hsome => ⟨False.elim, answer_heedful hnone hsome⟩

theorem readEach_heedful {α : Type} {read : Nat → Body (Option α)}
    (hread : Reads read) (first count : Nat)
    {k : Option (List α) → Body Outcome} (hnone : k none = ret null)
    (hsome : ∀ args, Heedful (k (some args))) :
    Heedful (readEach read first count >>= k) := by
  induction count generalizing first k with
  | zero => exact hsome []
  | succ count ih =>
      rw [readEach, bind_assoc]
      apply hread
      · exact hnone
      · intro arg
        simp only [bind_assoc, pure_eq_ret, ret_bind]
        apply ih
        · exact hnone
        · exact fun args => hsome (arg :: args)

theorem takesArgs_heedful (name : Bytes) (argc count : Nat)
    (expected : String) (body : List Bytes → Action Outcome) :
    Heedful (takesArgs name argc count expected body) := by
  unfold takesArgs
  split
  · exact act_heedful _
  · exact readEach_heedful evaluate_reads 0 count rfl fun args =>
      act_heedful (body args)

theorem packageExtractFileFn_heedful (name : Bytes) (argc : Nat) :
    Heedful (packageExtractFileFn name argc) := by
  unfold packageExtractFileFn
  split
  · exact act_heedful _
  · apply readEach_heedful evaluate_reads 0 argc rfl
    rintro (_ | ⟨zipPath, _ | ⟨destPath, _ | _⟩⟩)
    · trivial
    · exact act_heedful (extractToBuffer zipPath)
    · exact act_heedful (extractToFile zipPath destPath)
    · trivial

theorem symlinkFn_heedful (name : Bytes) (argc : Nat) :
    Heedful (symlinkFn name argc) := by
  unfold symlinkFn
  split
  · exact act_heedful _
  · apply evaluate_reads 0 _ rfl
    intro target
    exact readEach_heedful evaluate_reads 1 (argc - 1) rfl fun srcs =>
      act_heedful (linkEach target srcs)

theorem setPermFn_heedful (name : Bytes) (argc : Nat) :
    Heedful (setPermFn name argc) := by
  unfold setPermFn
  dsimp only
  generalize 4 + (if decide (name = Bytes.ofString "set_perm_recursive")
    then 1 else 0) = least
  by_cases hfew : argc < least
  · rw [if_pos hfew]
    exact Heeds.of_issues ((act_issues _).bind fun _ => act_issues _)
  · rw [if_neg hfew]
    exact readEach_heedful evaluate_reads 0 argc rfl fun args =>
      act_heedful (setPerm name _ args)

theorem getPropFn_heedful (name : Bytes) (argc : Nat) :
    Heedful (getPropFn name argc) := by
  unfold getPropFn
  split
  · exact act_heedful _
  · exact evaluate_reads 0 _ rfl fun key => act_heedful (getProp key)

theorem fileGetPropFn_heedful (name : Bytes) :
    Heedful (fileGetPropFn name) := by
  apply readEach_heedful evaluate_reads 0 2 rfl
  rintro (_ | ⟨filename, _ | ⟨key, _ | _⟩⟩)
  · trivial
  · trivial
  · exact act_heedful (readPropFile name filename key)
  · trivial

theorem writeRawImageFn_heedful (name : Bytes) :
    Heedful (writeRawImageFn name) := by
  apply readEach_heedful evaluate_reads 0 2 rfl
  rintro (_ | ⟨filename, _ | ⟨partition, _ | _⟩⟩)
  · trivial
  · trivial
  · exact act_heedful (writeRawImage name filename partition)
  · trivial

theorem applyPatchSpaceFn_heedful (name : Bytes) :
    Heedful (applyPatchSpaceFn name) := by
  apply readEach_heedful evaluate_reads 0 1 rfl
  rintro (_ | ⟨bytesStr, _ | _⟩)
  · trivial
  · exact act_heedful (applyPatchSpace name bytesStr)
  · trivial

theorem uiPrintFn_heedful (argc : Nat) : Heedful (uiPrintFn argc) :=
  readEach_heedful evaluate_reads 0 argc rfl fun args =>
    act_heedful (uiPrint args.flatten)

theorem runProgramFn_heedful (name : Bytes) (argc : Nat) :
    Heedful (runProgramFn name argc) := by
  unfold runProgramFn
  split
  · exact act_heedful _
  · exact readEach_heedful evaluate_reads 0 argc rfl fun args =>
      act_heedful (runProgram args)

theorem sha1CheckFn_heedful (sha1 : Bytes → Bytes) (name : Bytes)
    (argc : Nat) : Heedful (sha1CheckFn sha1 name argc) := by
  unfold sha1CheckFn
  split
  · exact act_heedful _
  · apply readEach_heedful evaluateValue_reads 0 argc rfl
    rintro (_ | ⟨file, values⟩)
    · trivial
    · dsimp only
      split
      · trivial
      · trivial

/-- All functions but three handle null arguments wherever they stand. -/
theorem body_heedful (sha1 : Bytes → Bytes) (name : Bytes) (argc : Nat)
    {fn : InstallFn} (hdelete : fn ≠ .DeleteFn) (hpatch : fn ≠ .ApplyPatchFn)
    (hcheck : fn ≠ .ApplyPatchCheckFn) :
    Heedful (fn.body sha1 name argc) := by
  cases fn with
  | MountFn | IsMountedFn | UnmountFn | FormatFn | ShowProgressFn
  | SetProgressFn | PackageExtractDirFn | ReadFileFn =>
      exact takesArgs_heedful name argc _ _ _
  | DeleteFn => exact absurd rfl hdelete
  | ApplyPatchFn => exact absurd rfl hpatch
  | ApplyPatchCheckFn => exact absurd rfl hcheck
  | PackageExtractFileFn => exact packageExtractFileFn_heedful name argc
  | SymlinkFn => exact symlinkFn_heedful name argc
  | SetPermFn => exact setPermFn_heedful name argc
  | GetPropFn => exact getPropFn_heedful name argc
  | FileGetPropFn => exact fileGetPropFn_heedful name
  | WriteRawImageFn => exact writeRawImageFn_heedful name
  | ApplyPatchSpaceFn => exact applyPatchSpaceFn_heedful name
  | Sha1CheckFn => exact sha1CheckFn_heedful sha1 name argc
  | UIPrintFn => exact uiPrintFn_heedful argc
  | RunProgramFn => exact runProgramFn_heedful name argc

section Failing

variable (g : Setting S) (s : S)

/-- An argument that is evaluated is null. -/
def Failing {α : Type} (prog : Body α) : Prop :=
  ∃ x ∈ prog.trace g.handler s, Fails x.1 x.2

theorem failing_bind {α β : Type} (prog : Body α) (f : α → Body β) :
    Failing g s (prog >>= f) ↔ Failing g s prog ∨
      Failing g (prog.eval g.handler s).2 (f (prog.eval g.handler s).1) := by
  unfold Failing
  simp only [trace_bind, List.mem_append, or_and_right, exists_or]

theorem not_failing_of_issues {α : Type} {prog : Body α}
    (hprog : prog.Issues fun c => ∀ r, ¬ Fails c r) :
    ¬ Failing g s prog := by
  rintro ⟨x, hx, hfails⟩
  exact hprog.trace g.handler s hx _ hfails

theorem not_failing_ret {α : Type} (value : α) :
    ¬ Failing g s (ret value : Body α) := by
  rintro ⟨x, hx, -⟩
  cases hx

theorem propagates_of_not_failing {fn : Body Outcome}
    (hfn : ¬ Failing g s fn) : PropagatesFailure g s fn :=
  fun hfail => absurd hfail hfn

theorem not_propagates {fn : Body Outcome} (hfail : Failing g s fn)
    (hvalue : (fn.eval g.handler s).1 ≠ null) :
    ¬ PropagatesFailure g s fn :=
  fun hpropagates => hvalue (hpropagates hfail).1

/-- Reading an argument gives its value and does nothing else. -/
structure Answers {α : Type} (read : Nat → Body (Option α))
    (answers : Nat → Option α) : Prop where
  eval_eq (i : Nat) : (read i).eval g.handler s = (answers i, s)
  failing_iff (i : Nat) : Failing g s (read i) ↔ answers i = none

theorem evaluate_answers :
    Answers g s evaluate fun i => string? (g.value i) := by
  refine ⟨fun _ => rfl, fun i => ?_⟩
  unfold Failing evaluate perform
  simp [trace, Setting.handler, Fails]

theorem evaluateValue_answers : Answers g s evaluateValue g.value := by
  refine ⟨fun _ => rfl, fun i => ?_⟩
  unfold Failing evaluateValue perform
  simp [trace, Setting.handler, Fails]

variable {g s}

/-- What `readEach` reads: nothing if one of the arguments is null. -/
theorem readEach_cases {α : Type} {read : Nat → Body (Option α)}
    {answers : Nat → Option α} (hread : Answers g s read answers)
    (first count : Nat) :
    (∃ args, (readEach read first count).eval g.handler s = (some args, s) ∧
      args.length = count ∧ ¬ Failing g s (readEach read first count) ∧
      ∀ k < count, args[k]? = answers (first + k)) ∨
    ((readEach read first count).eval g.handler s = (none, s) ∧
      Failing g s (readEach read first count) ∧
      ∃ k < count, answers (first + k) = none) := by
  induction count generalizing first with
  | zero => exact .inl ⟨[], rfl, rfl, not_failing_ret g s _, by simp⟩
  | succ count ih =>
      rw [readEach, eval_bind, failing_bind, hread.eval_eq,
        hread.failing_iff]
      cases hfirst : answers first with
      | none => exact .inr ⟨rfl, .inl rfl, 0, by omega, hfirst⟩
      | some arg =>
          dsimp only
          rw [eval_bind, failing_bind]
          obtain ⟨args, heval, hlength, hfine, hargs⟩ |
            ⟨heval, hfail, k, hk, hnone⟩ := ih (first + 1)
          · refine .inl ⟨arg :: args, by rw [heval]; rfl, by simp [hlength],
              ?_, ?_⟩
            · rintro (hnone | hfail | hfail)
              · cases hnone
              · exact hfine hfail
              · exact not_failing_ret _ _ _ hfail
            · rintro (_ | k) hk
              · exact hfirst.symm
              · rw [List.getElem?_cons_succ, hargs k (by omega),
                  Nat.add_right_comm, Nat.add_assoc]
          · refine .inr ⟨by rw [heval]; rfl, .inr (.inl hfail), k + 1,
              by omega, ?_⟩
            rw [← hnone, Nat.add_right_comm, Nat.add_assoc]

/-- The position of the first path that is null, if there is one. -/
theorem readPaths_cases (first count : Nat) :
    (∃ paths, (readPaths first count).eval g.handler s = (.ok paths, s) ∧
      ¬ Failing g s (readPaths first count) ∧
      ∀ k < count, string? (g.value (first + k)) ≠ none) ∨
    (∃ k < count,
      (readPaths first count).eval g.handler s = (.error (first + k), s) ∧
      Failing g s (readPaths first count) ∧
      string? (g.value (first + k)) = none ∧
      ∀ j < k, string? (g.value (first + j)) ≠ none) := by
  induction count generalizing first with
  | zero => exact .inl ⟨[], rfl, not_failing_ret g s _, by simp⟩
  | succ count ih =>
      rw [readPaths, eval_bind, failing_bind,
        (evaluate_answers g s).eval_eq, (evaluate_answers g s).failing_iff]
      cases hfirst : string? (g.value first) with
      | none =>
          exact .inr ⟨0, by omega, rfl, .inl rfl, hfirst, by simp⟩
      | some path =>
          dsimp only
          rw [eval_bind, failing_bind]
          have hshift : ∀ k, first + (k + 1) = first + 1 + k := by omega
          obtain ⟨paths, heval, hfine, hpaths⟩ |
            ⟨k, hk, heval, hfail, hnone, hbefore⟩ := ih (first + 1)
          · refine .inl ⟨path :: paths, by rw [heval]; rfl, ?_, ?_⟩
            · rintro (hnone | hfail | hfail)
              · cases hnone
              · exact hfine hfail
              · exact not_failing_ret _ _ _ hfail
            · rintro (_ | k) hk
              · simp [hfirst]
              · rw [hshift]
                exact hpaths k (by omega)
          · refine .inr ⟨k + 1, by omega, by rw [hshift k, heval]; rfl,
              .inr (.inl hfail), by rw [hshift]; exact hnone, ?_⟩
            rintro (_ | j) hj
            · simp [hfirst]
            · rw [hshift]
              exact hbefore j (by omega)

theorem readEach_issues {α : Type} {read : Nat → Body (Option α)}
    {allowed : Call Outside → Prop} (hread : ∀ i, (read i).Issues allowed)
    (first count : Nat) : (readEach read first count).Issues allowed := by
  induction count generalizing first with
  | zero => trivial
  | succ count ih =>
      refine (hread first).bind ?_
      rintro (_ | arg)
      · trivial
      · exact (ih (first + 1)).bind fun _ => trivial

theorem readPaths_issues (first count : Nat) :
    (readPaths first count).Issues fun c => ¬ IsEffect c := by
  induction count generalizing first with
  | zero => trivial
  | succ count ih =>
      refine Issues.bind (issues_perform id) ?_
      rintro (_ | path)
      · trivial
      · exact (ih (first + 1)).bind fun _ => trivial

/-- A null pointer is returned as soon as the arguments are read. -/
theorem propagates_of_null {α : Type} {read : Body α}
    {k : α → Body Outcome} (hread : read.Issues fun c => ¬ IsEffect c)
    (hnull : k (read.eval g.handler s).1 = ret null) :
    PropagatesFailure g s (read >>= k) := by
  intro _
  rw [eval_bind, trace_bind, hnull]
  refine ⟨rfl, ?_⟩
  intro x hx
  rw [trace, List.append_nil] at hx
  exact hread.trace g.handler s hx

theorem deleteFn_propagates_iff (name : Bytes) (argc : Nat) :
    PropagatesFailure g s (deleteFn name argc) ↔
      ¬ InstallFn.DeleteFn.Mishandles argc g.value := by
  unfold deleteFn
  obtain ⟨paths, heval, hfine, hpaths⟩ |
    ⟨_ | k, hk, heval, hfail, hnone, hbefore⟩ :=
      readPaths_cases (g := g) (s := s) 0 argc
  · refine iff_of_true (propagates_of_not_failing g s ?_) ?_
    · rw [failing_bind, heval]
      rintro (hfail | hfail)
      · exact hfine hfail
      · apply not_failing_of_issues _ _ _ hfail
        exact (act_issues _).bind fun _ => trivial
    · rintro ⟨-, i, hi, hnone⟩
      exact hpaths i hi (by rwa [Nat.zero_add])
  · refine iff_of_true (propagates_of_null (readPaths_issues 0 argc) ?_) ?_
    · rw [heval]
      rfl
    · exact fun hmishandled => hmishandled.1 hnone
  · refine iff_of_false (not_propagates g s ?_ ?_) ?_
    · rw [failing_bind]
      exact .inl hfail
    · rw [eval_bind, heval, Nat.zero_add]
      exact Outcome.noConfusion
    · rw [not_not]
      exact ⟨hbefore 0 (by omega), k + 1, hk, by rwa [Nat.zero_add] at hnone⟩

theorem applyPatchFn_propagates_iff (name : Bytes) {argc : Nat}
    (hcount : 6 ≤ argc ∧ argc % 2 = 0) :
    PropagatesFailure g s (applyPatchFn name argc) ↔
      ¬ InstallFn.ApplyPatchFn.Mishandles argc g.value := by
  unfold applyPatchFn
  rw [if_neg (by omega)]
  obtain ⟨args, heval, hlength, hfine, hargs⟩ | ⟨heval, -, k, hk, hnone⟩ :=
    readEach_cases (evaluate_answers g s) 0 4
  · obtain ⟨source, target, targetSha1, size, rfl⟩ :
        ∃ a b c d, args = [a, b, c, d] := by
      match args, hlength with
      | [a, b, c, d], _ => exact ⟨a, b, c, d, rfl⟩
    have hstrings : ∀ i < 4, string? (g.value i) ≠ none := by
      intro i hi
      rw [← Nat.zero_add i, ← hargs i hi]
      simpa using hi
    have hsize : string? (g.value 3) = some size := (hargs 3 (by omega)).symm
    cases hcountSize : byteCount size with
    | none =>
        refine iff_of_true (propagates_of_not_failing g s ?_) ?_
        · rw [readArgs, failing_bind, heval]
          rintro (hfail | hfail)
          · exact hfine hfail
          · apply not_failing_of_issues _ _ _ hfail
            dsimp only
            rw [hcountSize]
            exact act_issues _
        · rintro ⟨-, hparses, -⟩
          rw [hsize] at hparses
          exact hparses hcountSize
    | some targetSize =>
        obtain ⟨values, hvalues, hlength', hfine', hall⟩ |
          ⟨hvalues, hfail, k, hk, hnone⟩ :=
            readEach_cases (evaluateValue_answers g s) 4 (argc - 4)
        · refine iff_of_true (propagates_of_not_failing g s ?_) ?_
          · rw [readArgs, failing_bind, heval]
            dsimp only
            rw [hcountSize]
            dsimp only
            rw [readValueVarArgs, failing_bind, hvalues]
            rintro (hfail | hfail | hfail)
            · exact hfine hfail
            · exact hfine' hfail
            · exact not_failing_of_issues _ _ (act_issues _) hfail
          · rintro ⟨-, -, i, hi, hnone⟩
            by_cases hfour : i < 4
            · exact hstrings i hfour (by rw [hnone]; rfl)
            · have hvalue := hall (i - 4) (by omega)
              rw [show 4 + (i - 4) = i by omega, hnone,
                List.getElem?_eq_none_iff] at hvalue
              omega
        · refine iff_of_false (not_propagates g s ?_ ?_) ?_
          · rw [readArgs, failing_bind, heval]
            dsimp only
            rw [hcountSize]
            dsimp only
            rw [readValueVarArgs, failing_bind]
            exact .inr (.inl hfail)
          · rw [readArgs, eval_bind, heval]
            dsimp only
            rw [hcountSize]
            dsimp only
            rw [readValueVarArgs, eval_bind, hvalues]
            exact Outcome.noConfusion
          · rw [not_not]
            refine ⟨hstrings, ?_, 4 + k, by omega, hnone⟩
            rw [hsize, Option.bind_some, hcountSize]
            exact Option.some_ne_none _
  · refine iff_of_true (propagates_of_null ?_ ?_) ?_
    · exact readEach_issues (fun i => issues_perform id) 0 4
    · rw [readArgs, heval]
      rfl
    · rintro ⟨hstrings, -⟩
      exact hstrings k hk (by rwa [Nat.zero_add] at hnone)

theorem applyPatchCheckFn_propagates_iff (name : Bytes) {argc : Nat}
    (hcount : 1 ≤ argc) :
    PropagatesFailure g s (applyPatchCheckFn name argc) ↔
      ¬ InstallFn.ApplyPatchCheckFn.Mishandles argc g.value := by
  unfold applyPatchCheckFn
  rw [if_neg (by omega)]
  obtain ⟨args, heval, hlength, hfine, hargs⟩ | ⟨heval, -, k, hk, hnone⟩ :=
    readEach_cases (evaluate_answers g s) 0 1
  · obtain ⟨filename, rfl⟩ := List.length_eq_one_iff.mp hlength
    have hfirst : string? (g.value 0) = some filename :=
      (hargs 0 (by omega)).symm
    obtain ⟨sha1s, hsha1s, hlength', hfine', hall⟩ |
      ⟨hsha1s, hfail, k, hk, hnone⟩ :=
        readEach_cases (evaluate_answers g s) 1 (argc - 1)
    · refine iff_of_true (propagates_of_not_failing g s ?_) ?_
      · rw [readArgs, failing_bind, heval]
        dsimp only
        rw [readVarArgs, failing_bind, hsha1s]
        rintro (hfail | hfail | hfail)
        · exact hfine hfail
        · exact hfine' hfail
        · apply not_failing_of_issues _ _ _ hfail
          refine (act_issues _).bind ?_
          rintro (_ | found)
          · trivial
          · exact Issues.ite trivial trivial
      · rintro ⟨-, i, hi, hnone⟩
        by_cases hzero : i = 0
        · rw [hzero, hfirst] at hnone
          cases hnone
        · have hvalue := hall (i - 1) (by omega)
          rw [show 1 + (i - 1) = i by omega, hnone,
            List.getElem?_eq_none_iff] at hvalue
          omega
    · refine iff_of_false (not_propagates g s ?_ ?_) ?_
      · rw [readArgs, failing_bind, heval]
        dsimp only
        rw [readVarArgs, failing_bind]
        exact .inr (.inl hfail)
      · rw [readArgs, eval_bind, heval]
        dsimp only
        rw [readVarArgs, eval_bind, hsha1s]
        dsimp only
        rw [eval_bind]
        split
        · exact Outcome.noConfusion
        · exact Outcome.noConfusion
      · rw [not_not]
        exact ⟨by simp [hfirst], 1 + k, by omega, hnone⟩
  · refine iff_of_true (propagates_of_null ?_ ?_) ?_
    · exact readEach_issues (fun i => issues_perform id) 0 1
    · rw [readArgs, heval]
      rfl
    · rintro ⟨hstring, -⟩
      obtain rfl : k = 0 := by omega
      exact hstring hnone

end Failing

/-- A function that is given a number of arguments it is made for handles null
arguments, except in the positions that three of them get wrong. -/
theorem propagatesFailure_iff (sha1 : Bytes → Bytes) (fn : InstallFn)
    {name : String} {argc : Nat} (hcount : fn.Accepts name argc)
    (g : Setting S) (s : S) :
    PropagatesFailure g s (fn.body sha1 (.ofString name) argc) ↔
      ¬ fn.Mishandles argc g.value := by
  by_cases hdelete : fn = .DeleteFn
  · subst hdelete
    exact deleteFn_propagates_iff _ argc
  by_cases hpatch : fn = .ApplyPatchFn
  · subst hpatch
    exact applyPatchFn_propagates_iff _ hcount
  by_cases hcheck : fn = .ApplyPatchCheckFn
  · subst hcheck
    exact applyPatchCheckFn_propagates_iff _ hcount
  refine iff_of_true ?_ ?_
  · exact (body_heedful sha1 _ argc hdelete hpatch hcheck).propagates g s
  · cases fn with
    | DeleteFn => exact absurd rfl hdelete
    | ApplyPatchFn => exact absurd rfl hpatch
    | ApplyPatchCheckFn => exact absurd rfl hcheck
    | _ => exact id

namespace UpdaterArgumentsWitness

/-- Nothing outside succeeds. -/
def nothing : (e : Outside) → e.Answer
  | .mkdir _ | .mtdScanPartitions | .scanMountedVolumes | .fclose
  | .unmountMountedVolume _ | .progress _ _ | .setProgress _ | .cmdPipe _
  | .symlink _ _ | .chown _ _ _ | .chmod _ _ | .printf _
  | .dirSetHierarchyPermissions _ _ _ _ _ => ()
  | .mtdFindPartitionByName _ | .mtdMountPartition _ _ | .mount _ _ _
  | .findMountedVolumeByMountPoint _ | .mtdWritePartition _
  | .mtdWriteData _ | .mtdEraseBlocks _ | .mtdWriteClose | .unlink _
  | .dirUnlinkHierarchy _ | .mzExtractRecursive _ _ | .mzFindZipEntry _
  | .mzExtractZipEntryToFile _ | .fopenWrite _ | .cacheSizeCheck _
  | .applypatch _ _ _ _ _ _ => false
  | .applypatchCheck _ _ => none
  | .mzExtractZipEntryToBuffer _ | .loadFileContents _ => none
  | .fopenRead _ => none
  | .stat _ => none
  | .strerror | .propertyGet _ => []
  | .forkAndWait _ | .missingArgument => (0 : Int)

/-- The first argument is a string and the others are null. -/
def firstOnly : Setting Unit where
  value i := if i = 0 then some (.string [97]) else none
  span _ := (0, 0)
  script := []
  outside e _ := (nothing e, ())

def noHash (_ : Bytes) : Bytes := []

theorem symlink_heeds_null :
    InstallFn.SymlinkFn.Accepts "symlink" 2 ∧ PropagatesFailure firstOnly ()
      (InstallFn.SymlinkFn.body noHash (.ofString "symlink") 2) :=
  have haccepts : InstallFn.SymlinkFn.Accepts "symlink" 2 := Nat.le_succ 1
  ⟨haccepts, (propagatesFailure_iff noHash .SymlinkFn haccepts firstOnly
    ()).mpr id⟩

/-- `delete("a", abort())` does not come to its end. -/
theorem delete_second_null :
    ¬ ∀ (entry : String × InstallFn), entry ∈ installFunctions →
      ∀ argc, entry.2.Accepts entry.1 argc → ∀ (g : Setting Unit),
        PropagatesFailure g ()
          (entry.2.body noHash (.ofString entry.1) argc) := by
  intro hclaim
  have hdelete := hclaim ("delete", .DeleteFn) (by decide) 2 trivial firstOnly
  have hnull := (hdelete ⟨⟨.evaluate 1, (none : Option Bytes)⟩,
    List.mem_cons_of_mem _ (List.mem_cons_self ..), rfl⟩).1
  exact Outcome.noConfusion hnull

end UpdaterArgumentsWitness

end Updater

end MetaOS
