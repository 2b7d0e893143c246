/-
bootable/recovery: how many arguments the functions of scripts take.

The parser hands every function as many arguments as the script gives it, so
the functions check the number.  Some do not: they read the arguments they
need, whether there are any, and leave the others alone.
-/
import MetaOS.EdifyRoundTrip
import MetaOS.UpdaterArguments

namespace MetaOS

namespace Edify

open Updater Prog

/-- A call reads no argument, or one that there is. -/
def Within (argc : Nat) : Call Outside → Prop
  | .evaluate i | .evaluateValue i | .span i => i < argc
  | _ => True

/-- Whatever its surroundings answer, the function sets a message and returns
a null pointer. -/
def Reports (fn : Body Outcome) : Prop :=
  ∀ (S : Type) (handler : (c : Call Outside) → S → c.Answer Outside.Answer × S)
    (s : S), (fn.eval handler s).1 = null ∧
      ∃ message, ⟨.errmsg message, ()⟩ ∈ fn.trace handler s

/-- The numbers of arguments a function is made for. -/
def Function.Accepts (name : Bytes) (argc : Nat) : Function → Prop
  | Literal | ConcatFn | AssertFn | StdoutFn => True
  | IfElseFn => argc = 2 ∨ argc = 3
  | AbortFn => argc ≤ 1
  | SleepFn | LogicalNotFn => argc = 1
  | LogicalAndFn | LogicalOrFn | SubstringFn | EqualityFn | InequalityFn
  | SequenceFn | LessThanIntFn | GreaterThanIntFn => argc = 2
  | install .SetPermFn =>
      if name = .ofString "set_perm_recursive" then 5 ≤ argc else 4 ≤ argc
  | install fn => fn.Accepts "" argc

/-- What a call of a function with so many arguments must keep to. -/
structure CallSafe (sha1 : Bytes → Bytes) (fn : Function) (name : Bytes)
    (argc : Nat) : Prop where
  within : (fn.body sha1 name argc).Issues (Within argc)
  reports : ¬ fn.Accepts name argc → Reports (fn.body sha1 name argc)

/-- The functions without a check, and how many arguments they need. -/
def Function.unchecked : Function → Option Nat
  | SleepFn | install .ApplyPatchSpaceFn => some 1
  | SubstringFn | install .FileGetPropFn | install .WriteRawImageFn => some 2
  | _ => none

/-- The functions that are operators only, and how many operands they have. -/
def Function.operands : Function → Option Nat
  | LogicalNotFn => some 1
  | LogicalAndFn | LogicalOrFn | EqualityFn | InequalityFn | SequenceFn =>
      some 2
  | _ => none

/-- The grammar fixes the number of operands. -/
def Function.Built (argc : Nat) (fn : Function) : Prop :=
  ∀ count ∈ fn.operands, argc = count

section Reading

variable {argc : Nat}

theorem evaluate_within {i : Nat} (hi : i < argc) :
    (evaluate i : Body (Option Bytes)).Issues (Within argc) :=
  issues_perform hi

theorem evaluateValue_within {i : Nat} (hi : i < argc) :
    (evaluateValue i : Body (Option Value)).Issues (Within argc) :=
  issues_perform hi

theorem act_within {α : Type} (action : Action α) :
    (act action).Issues (Within argc) := by
  apply Issues.hoist
  rintro (message | e)
  · exact issues_perform trivial
  · exact issues_perform trivial

/-- Arguments are read up to the last that is asked for. -/
theorem readEach_within {α : Type} {read : Nat → Body (Option α)}
    {stop : Nat} (hread : ∀ i < stop, (read i).Issues (Within argc))
    {first count : Nat} (hcount : first + count ≤ stop) :
    (readEach read first count).Issues (Within argc) := by
  induction count generalizing first with
  | zero => trivial
  | succ count ih =>
      refine (hread first (by omega)).bind ?_
      rintro (_ | arg)
      · trivial
      · exact (ih (by omega)).bind fun _ => trivial

/-- Either all parameters are assigned or there are none to use. -/
theorem readEach_assigns {α : Type} (read : Nat → Body (Option α))
    (first count : Nat) : (readEach read first count).Yields fun args =>
      ∀ values, args = some values → values.length = count := by
  induction count generalizing first with
  | zero =>
      rintro values ⟨⟩
      rfl
  | succ count ih =>
      refine (yields_true (read first)).bind ?_
      rintro (_ | arg) -
      · rintro values ⟨⟩
      · refine (ih (first + 1)).bind ?_
        rintro (_ | rest) hrest values hvalues
        · cases hvalues
        · cases hvalues
          rw [List.length_cons, hrest rest rfl]

end Reading

section Counting

theorem reports_errmsg (message : Bytes) :
    Reports (setErrmsg message >>= fun _ => pure null) :=
  fun _ _ _ => ⟨rfl, message, List.mem_cons_self⟩

theorem reports_errorAbort (message : Bytes) :
    Reports (act (errorAbort message)) :=
  fun _ _ _ => ⟨rfl, abortMessage message, List.mem_cons_self⟩

theorem reports_evaluate {i : Nat} {k : Option Bytes → Body Outcome}
    (hk : ∀ r, Reports (k r)) : Reports (evaluate i >>= k) := by
  intro S handler s
  obtain ⟨hnull, message, hmem⟩ := hk (handler (.evaluate i) s).1 S handler
    (handler (.evaluate i) s).2
  exact ⟨hnull, message, List.mem_cons_of_mem _ hmem⟩

theorem takesArgs_reports {name : Bytes} {argc count : Nat}
    (hcount : argc ≠ count) (expected : String)
    (body : List Bytes → Action Outcome) :
    Reports (takesArgs name argc count expected body) := by
  unfold takesArgs
  rw [if_pos hcount]
  exact reports_errorAbort _

theorem takesArgs_within (name : Bytes) (argc count : Nat)
    (expected : String) (body : List Bytes → Action Outcome) :
    (takesArgs name argc count expected body).Issues (Within argc) := by
  unfold takesArgs
  by_cases hcount : argc = count
  · rw [if_neg (not_not.mpr hcount)]
    refine (readEach_within (fun i => evaluate_within) (by omega)).bind ?_
    rintro (_ | args)
    · trivial
    · exact act_within (body args)
  · rw [if_pos hcount]
    exact act_within _

end Counting

section Install

variable (sha1 : Bytes → Bytes) (name : Bytes) (argc : Nat)

theorem deleteFn_within :
    (deleteFn name argc).Issues (Within argc) := by
  have hread : ∀ first count, first + count ≤ argc →
      (readPaths first count).Issues (Within argc) := by
    intro first count
    induction count generalizing first with
    | zero => exact fun _ => trivial
    | succ count ih =>
        intro hcount
        refine (evaluate_within (by omega)).bind ?_
        rintro (_ | path)
        · trivial
        · exact (ih (first + 1) (by omega)).bind fun _ => trivial
  refine (hread 0 argc (by omega)).bind ?_
  rintro ((_ | _) | paths)
  · trivial
  · trivial
  · exact (act_within _).bind fun _ => trivial

theorem packageExtractFileFn_within :
    (packageExtractFileFn name argc).Issues (Within argc) := by
  unfold packageExtractFileFn
  apply Issues.ite
  · exact act_within _
  · refine (readEach_within (fun i => evaluate_within) (by omega)).bind ?_
    rintro (_ | _ | ⟨zipPath, _ | ⟨destPath, _ | _⟩⟩)
    · trivial
    · trivial
    · exact act_within (extractToBuffer zipPath)
    · exact act_within (extractToFile zipPath destPath)
    · trivial

theorem symlinkFn_within : (symlinkFn name argc).Issues (Within argc) := by
  unfold symlinkFn
  by_cases hnone : argc = 0
  · rw [if_pos hnone]
    exact act_within _
  · rw [if_neg hnone]
    refine (evaluate_within (by omega)).bind ?_
    rintro (_ | target)
    · trivial
    · refine (readEach_within (fun i => evaluate_within) (by omega)).bind ?_
      rintro (_ | srcs)
      · trivial
      · exact act_within (linkEach target srcs)

theorem setPermFn_within : (setPermFn name argc).Issues (Within argc) := by
  unfold setPermFn
  apply Issues.ite
  · exact (act_within _).bind fun _ => act_within _
  · refine (readEach_within (fun i => evaluate_within) (by omega)).bind ?_
    rintro (_ | args)
    · trivial
    · exact act_within (setPerm name _ args)

theorem getPropFn_within : (getPropFn name argc).Issues (Within argc) := by
  unfold getPropFn
  by_cases hone : argc = 1
  · rw [if_neg (not_not.mpr hone)]
    refine (evaluate_within (by omega)).bind ?_
    rintro (_ | key)
    · trivial
    · exact act_within (getProp key)
  · rw [if_pos hone]
    exact act_within _

theorem applyPatchFn_within :
    (applyPatchFn name argc).Issues (Within argc) := by
  unfold applyPatchFn
  by_cases hcount : argc < 6 ∨ argc % 2 = 1
  · rw [if_pos hcount]
    exact act_within _
  · rw [if_neg hcount]
    refine (readEach_within (fun i => evaluate_within) (by omega)).bind ?_
    intro args
    split
    · rename_i source target targetSha1 targetSizeStr
      cases byteCount targetSizeStr with
      | none => exact act_within _
      | some targetSize =>
          refine (readEach_within (fun i => evaluateValue_within)
            (by omega)).bind ?_
          rintro (_ | values)
          · trivial
          · exact act_within _
    · trivial

theorem applyPatchCheckFn_within :
    (applyPatchCheckFn name argc).Issues (Within argc) := by
  unfold applyPatchCheckFn
  by_cases hnone : argc < 1
  · rw [if_pos hnone]
    exact act_within _
  · rw [if_neg hnone]
    refine (readEach_within (fun i => evaluate_within) (by omega)).bind ?_
    intro args
    split
    · refine (readEach_within (fun i => evaluate_within) (by omega)).bind ?_
      intro sha1s
      refine (act_within _).bind ?_
      intro found
      split
      · trivial
      · exact Issues.ite trivial trivial
    · trivial

theorem uiPrintFn_within : (uiPrintFn argc).Issues (Within argc) := by
  refine (readEach_within (fun i => evaluate_within) (by omega)).bind ?_
  rintro (_ | args)
  · trivial
  · exact act_within _

theorem runProgramFn_within :
    (runProgramFn name argc).Issues (Within argc) := by
  unfold runProgramFn
  apply Issues.ite
  · exact act_within _
  · refine (readEach_within (fun i => evaluate_within) (by omega)).bind ?_
    rintro (_ | args)
    · trivial
    · exact act_within _

theorem sha1CheckFn_within :
    (sha1CheckFn sha1 name argc).Issues (Within argc) := by
  unfold sha1CheckFn
  apply Issues.ite
  · exact act_within _
  · refine (readEach_within (fun i => evaluateValue_within)
      (by omega)).bind ?_
    rintro (_ | _ | ⟨file, values⟩)
    · trivial
    · trivial
    · dsimp only
      split
      · trivial
      · trivial

/-- A function that reads two strings, of which it checks nothing. -/
theorem readTwo_within {k : Option (List Bytes) → Body Outcome}
    (htwo : argc = 2) (hk : ∀ args, (k args).Issues (Within argc)) :
    (readArgs 2 >>= k).Issues (Within argc) :=
  (readEach_within (fun _ => evaluate_within) (by omega)).bind hk

theorem fileGetPropFn_within (htwo : argc = 2) :
    (fileGetPropFn name).Issues (Within argc) := by
  apply readTwo_within argc htwo
  rintro (_ | _ | ⟨filename, _ | ⟨key, _ | _⟩⟩)
  · trivial
  · trivial
  · trivial
  · exact act_within (readPropFile name filename key)
  · trivial

theorem writeRawImageFn_within (htwo : argc = 2) :
    (writeRawImageFn name).Issues (Within argc) := by
  apply readTwo_within argc htwo
  rintro (_ | _ | ⟨filename, _ | ⟨partition, _ | _⟩⟩)
  · trivial
  · trivial
  · trivial
  · exact act_within (writeRawImage name filename partition)
  · trivial

theorem applyPatchSpaceFn_within (hone : argc = 1) :
    (applyPatchSpaceFn name).Issues (Within argc) := by
  refine (readEach_within (fun _ => evaluate_within) (by omega)).bind ?_
  rintro (_ | _ | ⟨bytesStr, _ | _⟩)
  · trivial
  · trivial
  · exact act_within (applyPatchSpace name bytesStr)
  · trivial

variable {fn : InstallFn}

/-- The functions of the updater read what they are given, if the number is
right where it is not checked. -/
theorem install_within
    (hcount : ∀ count ∈ (Function.install fn).unchecked, argc = count) :
    (fn.body sha1 name argc).Issues (Within argc) := by
  cases fn with
  | MountFn | IsMountedFn | UnmountFn | FormatFn | ShowProgressFn
  | SetProgressFn | PackageExtractDirFn | ReadFileFn =>
      exact takesArgs_within name argc _ _ _
  | DeleteFn => exact deleteFn_within name argc
  | PackageExtractFileFn => exact packageExtractFileFn_within name argc
  | SymlinkFn => exact symlinkFn_within name argc
  | SetPermFn => exact setPermFn_within name argc
  | GetPropFn => exact getPropFn_within name argc
  | FileGetPropFn => exact fileGetPropFn_within name argc (hcount 2 rfl)
  | WriteRawImageFn => exact writeRawImageFn_within name argc (hcount 2 rfl)
  | ApplyPatchFn => exact applyPatchFn_within name argc
  | ApplyPatchCheckFn => exact applyPatchCheckFn_within name argc
  | ApplyPatchSpaceFn =>
      exact applyPatchSpaceFn_within name argc (hcount 1 rfl)
  | Sha1CheckFn => exact sha1CheckFn_within sha1 name argc
  | UIPrintFn => exact uiPrintFn_within argc
  | RunProgramFn => exact runProgramFn_within name argc

/-- The functions that check the number say so when it is wrong. -/
theorem install_reports (hchecked : (Function.install fn).unchecked = none)
    (hrefuse : ¬ (Function.install fn).Accepts name argc) :
    Reports (fn.body sha1 name argc) := by
  cases fn with
  | MountFn | IsMountedFn | UnmountFn | FormatFn | ShowProgressFn
  | SetProgressFn | PackageExtractDirFn | ReadFileFn =>
      exact takesArgs_reports hrefuse _ _
  | DeleteFn | UIPrintFn => exact absurd trivial hrefuse
  | PackageExtractFileFn =>
      have hwrong : argc ≠ 1 ∧ argc ≠ 2 := not_or.mp hrefuse
      change Reports (packageExtractFileFn name argc)
      unfold packageExtractFileFn
      rw [if_pos hwrong]
      exact reports_errorAbort _
  | SymlinkFn =>
      have hnone : argc = 0 := Nat.eq_zero_of_not_pos hrefuse
      change Reports (symlinkFn name argc)
      unfold symlinkFn
      rw [if_pos hnone]
      exact reports_errorAbort _
  | SetPermFn =>
      have hfew : argc < 4 + (if decide (name =
          Bytes.ofString "set_perm_recursive") then 1 else 0) := by
        simp only [Function.Accepts] at hrefuse
        split at hrefuse
        · rename_i hname
          simp only [hname, decide_true, if_true]
          omega
        · rename_i hname
          simp only [hname, decide_false, Bool.false_eq_true, if_false]
          omega
      change Reports (setPermFn name argc)
      unfold setPermFn
      dsimp only
      rw [if_pos hfew]
      exact fun _ _ _ =>
        ⟨rfl, _, List.mem_cons_of_mem _ List.mem_cons_self⟩
  | GetPropFn =>
      change Reports (getPropFn name argc)
      unfold getPropFn
      rw [if_pos (show argc ≠ 1 from hrefuse)]
      exact reports_errorAbort _
  | FileGetPropFn | WriteRawImageFn | ApplyPatchSpaceFn => cases hchecked
  | ApplyPatchFn =>
      have hwrong : argc < 6 ∨ argc % 2 = 1 := by
        simp only [Function.Accepts, InstallFn.Accepts] at hrefuse
        omega
      change Reports (applyPatchFn name argc)
      unfold applyPatchFn
      rw [if_pos hwrong]
      exact reports_errorAbort _
  | ApplyPatchCheckFn =>
      change Reports (applyPatchCheckFn name argc)
      unfold applyPatchCheckFn
      rw [if_pos (Nat.lt_of_not_le hrefuse)]
      exact reports_errorAbort _
  | Sha1CheckFn =>
      change Reports (sha1CheckFn sha1 name argc)
      unfold sha1CheckFn
      rw [if_pos (Nat.lt_of_not_le hrefuse)]
      exact reports_errorAbort _
  | RunProgramFn =>
      change Reports (runProgramFn name argc)
      unfold runProgramFn
      rw [if_pos (Nat.lt_of_not_le hrefuse)]
      exact reports_errorAbort _

end Install

section Builtins

variable {argc : Nat}

theorem assertFn_within :
    (assertFn argc : Body Outcome).Issues (Within argc) := by
  have hfrom : ∀ i count, i + count ≤ argc →
      (assertFrom i count : Body Outcome).Issues (Within argc) := by
    intro i count
    induction count generalizing i with
    | zero => exact fun _ => trivial
    | succ count ih =>
        intro hcount
        refine (evaluate_within (by omega)).bind ?_
        rintro (_ | v)
        · trivial
        · apply Issues.ite
          · exact ih (i + 1) (by omega)
          · have hi : Within argc (.span i) := by
              change i < argc
              omega
            refine Issues.bind (issues_perform hi) ?_
            intro span
            refine Issues.bind (issues_perform trivial) ?_
            intro script
            apply Issues.ite
            · exact (issues_perform trivial).bind fun _ => trivial
            · trivial
  exact hfrom 0 argc (by omega)

theorem stdoutFn_within :
    (stdoutFn argc : Body Outcome).Issues (Within argc) := by
  have hfrom : ∀ i count, i + count ≤ argc →
      (stdoutFrom i count : Body Outcome).Issues (Within argc) := by
    intro i count
    induction count generalizing i with
    | zero => exact fun _ => trivial
    | succ count ih =>
        intro hcount
        refine (evaluate_within (by omega)).bind ?_
        rintro (_ | v)
        · trivial
        · exact (issues_perform trivial).bind fun _ => ih (i + 1) (by omega)
  exact hfrom 0 argc (by omega)

theorem concatFn_within :
    (concatFn argc : Body Outcome).Issues (Within argc) := by
  apply Issues.ite
  · trivial
  · exact (readEach_within (fun _ => evaluate_within) (by omega)).bind
      fun _ => trivial

theorem ifElseFn_within :
    (ifElseFn argc : Body Outcome).Issues (Within argc) := by
  unfold ifElseFn
  by_cases hwrong : argc ≠ 2 ∧ argc ≠ 3
  · rw [if_pos hwrong]
    exact (issues_perform trivial).bind fun _ => trivial
  · rw [if_neg hwrong]
    refine (evaluate_within (by omega)).bind ?_
    rintro (_ | cond)
    · trivial
    · apply Issues.ite
      · exact (evaluateValue_within (by omega)).bind fun _ => trivial
      · by_cases hthree : argc = 3
        · rw [if_pos hthree]
          exact (evaluateValue_within (by omega)).bind fun _ => trivial
        · rw [if_neg hthree]
          trivial

theorem abortFn_within :
    (abortFn argc : Body Outcome).Issues (Within argc) := by
  unfold abortFn
  by_cases hsome : 0 < argc
  · rw [if_pos hsome]
    refine (evaluate_within hsome).bind ?_
    rintro (_ | msg)
    · exact (issues_perform trivial).bind fun _ => trivial
    · exact (issues_perform trivial).bind fun _ => trivial
  · rw [if_neg hsome]
    exact (issues_perform trivial).bind fun _ => trivial

theorem sleepFn_within (hone : argc = 1) :
    (sleepFn : Body Outcome).Issues (Within argc) := by
  refine (evaluate_within (by omega)).bind ?_
  rintro (_ | val)
  · trivial
  · exact (issues_perform trivial).bind fun _ => trivial

theorem logicalNotFn_within (hone : argc = 1) :
    (logicalNotFn : Body Outcome).Issues (Within argc) := by
  refine (evaluate_within (by omega)).bind ?_
  rintro (_ | val)
  · trivial
  · trivial

theorem logicalAndFn_within (htwo : argc = 2) :
    (logicalAndFn : Body Outcome).Issues (Within argc) := by
  refine (evaluate_within (by omega)).bind ?_
  rintro (_ | left)
  · trivial
  · apply Issues.ite
    · exact (evaluateValue_within (by omega)).bind fun _ => trivial
    · trivial

theorem logicalOrFn_within (htwo : argc = 2) :
    (logicalOrFn : Body Outcome).Issues (Within argc) := by
  refine (evaluate_within (by omega)).bind ?_
  rintro (_ | left)
  · trivial
  · apply Issues.ite
    · exact (evaluateValue_within (by omega)).bind fun _ => trivial
    · trivial

theorem compareFn_within (holds : Bytes → Bytes → Bool) (htwo : argc = 2) :
    (compareFn holds : Body Outcome).Issues (Within argc) := by
  refine (evaluate_within (by omega)).bind ?_
  rintro (_ | left)
  · trivial
  · refine (evaluate_within (by omega)).bind ?_
    rintro (_ | right)
    · trivial
    · trivial

theorem sequenceFn_within (htwo : argc = 2) :
    (sequenceFn : Body Outcome).Issues (Within argc) := by
  refine (evaluateValue_within (by omega)).bind ?_
  rintro (_ | left)
  · trivial
  · exact (evaluateValue_within (by omega)).bind fun _ => trivial

/-- The two arguments may stand in any order. -/
theorem lessThanIntFn_within {argv : Nat → Nat} (count : Nat)
    (hargv : count = 2 → ∀ i < 2, argv i < argc) :
    (lessThanIntFn count argv : Body Outcome).Issues (Within argc) := by
  unfold lessThanIntFn
  by_cases hcount : count = 2
  · rw [if_neg (not_not.mpr hcount)]
    refine (readEach_within (fun i hi => evaluate_within (hargv hcount i hi))
      (le_refl 2)).bind ?_
    intro args
    split
    · split
      · trivial
      · trivial
    · trivial
  · rw [if_pos hcount]
    exact (issues_perform trivial).bind fun _ => trivial

/-- Every function reads the arguments it has, if the number is right where
neither the grammar nor the function checks it. -/
theorem body_within (sha1 : Bytes → Bytes) {fn : Function} (name : Bytes)
    (hbuilt : fn.Built argc) (hcount : ∀ count ∈ fn.unchecked, argc = count) :
    (fn.body sha1 name argc).Issues (Within argc) := by
  cases fn with
  | Literal => trivial
  | ConcatFn => exact concatFn_within
  | IfElseFn => exact ifElseFn_within
  | AbortFn => exact abortFn_within
  | AssertFn => exact assertFn_within
  | SleepFn => exact sleepFn_within (hcount 1 rfl)
  | StdoutFn => exact stdoutFn_within
  | LogicalAndFn => exact logicalAndFn_within (hbuilt 2 rfl)
  | LogicalOrFn => exact logicalOrFn_within (hbuilt 2 rfl)
  | LogicalNotFn => exact logicalNotFn_within (hbuilt 1 rfl)
  | SubstringFn => exact compareFn_within _ (hcount 2 rfl)
  | EqualityFn | InequalityFn => exact compareFn_within _ (hbuilt 2 rfl)
  | SequenceFn => exact sequenceFn_within (hbuilt 2 rfl)
  | LessThanIntFn =>
      apply lessThanIntFn_within argc
      intro htwo i hi
      exact htwo.symm ▸ hi
  | GreaterThanIntFn =>
      change (greaterThanIntFn argc : Body Outcome).Issues (Within argc)
      unfold greaterThanIntFn
      by_cases htwo : argc = 2
      · rw [if_neg (not_not.mpr htwo)]
        apply lessThanIntFn_within 2
        intro _ i hi
        omega
      · rw [if_pos htwo]
        exact (issues_perform trivial).bind fun _ => trivial
  | install fn => exact install_within sha1 name argc hcount

/-- Every function that checks the number of its arguments reports a wrong
one. -/
theorem body_reports (sha1 : Bytes → Bytes) {fn : Function} (name : Bytes)
    (hbuilt : fn.Built argc) (hchecked : fn.unchecked = none)
    (hrefuse : ¬ fn.Accepts name argc) :
    Reports (fn.body sha1 name argc) := by
  cases fn with
  | Literal | ConcatFn | AssertFn | StdoutFn => exact absurd trivial hrefuse
  | IfElseFn =>
      have hwrong : argc ≠ 2 ∧ argc ≠ 3 := not_or.mp hrefuse
      change Reports (ifElseFn argc)
      unfold ifElseFn
      rw [if_pos hwrong]
      exact reports_errmsg _
  | AbortFn =>
      have hsome : 0 < argc :=
        Nat.lt_of_lt_of_le Nat.one_pos (Nat.le_of_not_le hrefuse)
      change Reports (abortFn argc)
      unfold abortFn
      rw [if_pos hsome]
      apply reports_evaluate
      rintro (_ | msg)
      · exact reports_errmsg _
      · exact reports_errmsg _
  | SleepFn | SubstringFn => cases hchecked
  | LogicalNotFn => exact absurd (hbuilt 1 rfl) hrefuse
  | LogicalAndFn | LogicalOrFn | EqualityFn | InequalityFn | SequenceFn =>
      exact absurd (hbuilt 2 rfl) hrefuse
  | LessThanIntFn =>
      change Reports (lessThanIntFn argc id)
      unfold lessThanIntFn
      rw [if_pos (show argc ≠ 2 from hrefuse)]
      exact reports_errmsg _
  | GreaterThanIntFn =>
      change Reports (greaterThanIntFn argc)
      unfold greaterThanIntFn
      rw [if_pos (show argc ≠ 2 from hrefuse)]
      exact reports_errmsg _
  | install fn => exact install_reports sha1 name argc hchecked hrefuse

end Builtins

section Unchecked

open UpdaterArgumentsWitness

/-- A file of one line, a comment, and nothing else. -/
def commentFile : (e : Outside) → e.Answer
  | .stat _ => some 1
  | .fopenRead _ => some [[35]]
  | e => nothing e

/-- All arguments are the string `1`. -/
def obliging : (c : Call Outside) → Unit → c.Answer Outside.Answer × Unit
  | .evaluate _, _ => (some [49], ())
  | .evaluateValue _, _ => (some (.string [49]), ())
  | .span _, _ => ((0, 0), ())
  | .script, _ => ([], ())
  | .errmsg _, _ | .fputs _, _ | .sleep _, _ => ((), ())
  | .outside e, _ => (commentFile e, ())

/-- Without a check a function does its work however many arguments there
are. -/
theorem unchecked_returns (sha1 : Bytes → Bytes) {fn : Function}
    (name : Bytes) (argc : Nat) {count : Nat}
    (hunchecked : fn.unchecked = some count) :
    ∃ v, ((fn.body sha1 name argc).eval obliging ()).1 =
      .returned (some v) := by
  cases fn with
  | SleepFn => exact ⟨_, rfl⟩
  | SubstringFn => exact ⟨.string (.ofString "t"), rfl⟩
  | install fn =>
      cases fn with
      | FileGetPropFn => exact ⟨.string [], rfl⟩
      | WriteRawImageFn => exact ⟨.string [], rfl⟩
      | ApplyPatchSpaceFn => exact ⟨.string [], rfl⟩
      | _ => cases hunchecked
  | _ => cases hunchecked

theorem accepts_iff_of_unchecked {fn : Function} (name : Bytes) {argc : Nat}
    {count : Nat} (hunchecked : fn.unchecked = some count) :
    fn.Accepts name argc ↔ argc = count := by
  cases fn with
  | SleepFn | SubstringFn =>
      cases hunchecked
      exact Iff.rfl
  | install fn =>
      cases fn with
      | FileGetPropFn | WriteRawImageFn | ApplyPatchSpaceFn =>
          cases hunchecked
          exact Iff.rfl
      | _ => cases hunchecked
  | _ => cases hunchecked

/-- A call is safe exactly if the number of arguments is right where it is
not checked. -/
theorem callSafe_iff (sha1 : Bytes → Bytes) {fn : Function} (name : Bytes)
    {argc : Nat} (hbuilt : fn.Built argc) :
    CallSafe sha1 fn name argc ↔ ∀ count ∈ fn.unchecked, argc = count := by
  constructor
  · intro hsafe count hunchecked
    by_contra hwrong
    rw [← accepts_iff_of_unchecked name hunchecked] at hwrong
    obtain ⟨v, hvalue⟩ := unchecked_returns sha1 name argc hunchecked
    have hnull := (hsafe.reports hwrong Unit obliging ()).1
    rw [hvalue] at hnull
    cases hnull
  · intro hcount
    constructor
    · exact body_within sha1 name hbuilt hcount
    · intro hrefuse
      cases hunchecked : fn.unchecked with
      | none => exact body_reports sha1 name hbuilt hunchecked hrefuse
      | some count =>
          rw [accepts_iff_of_unchecked name hunchecked] at hrefuse
          exact absurd (hcount count hunchecked) hrefuse

end Unchecked

section Scripts

/-- A call stands in an expression. -/
inductive Expr.HasCall (fn : Function) (name : Bytes) (argc : Nat) :
    Expr → Prop
  | here {argv : List Expr} {start stop : Int} (hargc : argv.length = argc) :
      HasCall fn name argc (.node fn name argv start stop)
  | inside {fn' : Function} {name' : Bytes} {argv : List Expr}
      {start stop : Int} {e : Expr} (hmem : e ∈ argv)
      (hcall : HasCall fn name argc e) :
      HasCall fn name argc (.node fn' name' argv start stop)

/-- All calls in an expression have the operands the grammar gives them. -/
def Expr.AllBuilt (e : Expr) : Prop :=
  ∀ fn name argc, e.HasCall fn name argc → fn.Built argc

theorem Expr.AllBuilt.node {fn : Function} {name : Bytes} {argv : List Expr}
    {start stop : Int} (hfn : fn.Built argv.length)
    (hargv : ∀ e ∈ argv, e.AllBuilt) :
    (Expr.node fn name argv start stop).AllBuilt := by
  intro fn' name' argc hcall
  cases hcall with
  | here hargc => exact hargc ▸ hfn
  | inside hmem hcall => exact hargv _ hmem fn' name' argc hcall

theorem Expr.AllBuilt.locate {e : Expr} (he : e.AllBuilt) (loc : YYLTYPE) :
    (e.locate loc).AllBuilt := by
  cases e with
  | node fn name argv start stop =>
      apply Expr.AllBuilt.node
      · exact he fn name argv.length (.here rfl)
      · intro arg hmem fn' name' argc hcall
        exact he fn' name' argc (.inside hmem hcall)

def Semantic.AllBuilt : Semantic → Prop
  | .expr e _ => e.AllBuilt
  | .arglist argv => ∀ e ∈ argv, e.AllBuilt

/-- The actions of the grammar build operators with their operands. -/
theorem Derives.allBuilt {find : Bytes → Option Function}
    (hfind : ∀ name fn, find name = some fn → ∀ argc, fn.Built argc)
    {w : List Lexeme} {sem : Semantic} (hderives : Derives find w sem) :
    sem.AllBuilt := by
  induction hderives with
  | string text loc =>
      apply Expr.AllBuilt.node
      · rintro count ⟨⟩
      · simp
  | paren l₁ l₃ hexpr ih => exact Expr.AllBuilt.locate ih _
  | trailing l₂ hexpr ih => exact Expr.AllBuilt.locate ih _
  | binary op l₂ hleft hright ihLeft ihRight =>
      apply Expr.AllBuilt.node
      · cases op with
        | concat => rintro count ⟨⟩
        | _ =>
            rintro count ⟨⟩
            rfl
      · simp only [List.mem_cons, List.not_mem_nil, or_false]
        rintro e (rfl | rfl)
        · exact ihLeft
        · exact ihRight
  | not l₁ hexpr ih =>
      apply Expr.AllBuilt.node
      · rintro count ⟨⟩
        rfl
      · simp only [List.mem_singleton]
        rintro e rfl
        exact ih
  | ifThen l₁ l₃ l₅ hcond hyes ihCond ihYes =>
      apply Expr.AllBuilt.node
      · rintro count ⟨⟩
      · simp only [List.mem_cons, List.not_mem_nil, or_false]
        rintro e (rfl | rfl)
        · exact ihCond
        · exact ihYes
  | ifThenElse l₁ l₃ l₅ l₇ hcond hyes hno ihCond ihYes ihNo =>
      apply Expr.AllBuilt.node
      · rintro count ⟨⟩
      · simp only [List.mem_cons, List.not_mem_nil, or_false]
        rintro e (rfl | rfl | rfl)
        · exact ihCond
        · exact ihYes
        · exact ihNo
  | call l₁ l₂ l₄ hname hargs ih =>
      exact .node (hfind _ _ hname _) ih
  | empty => simp [Semantic.AllBuilt]
  | one hexpr ih =>
      simp only [Semantic.AllBuilt, List.mem_singleton]
      rintro e rfl
      exact ih
  | more l₂ hargs hexpr ihArgs ihExpr =>
      simp only [Semantic.AllBuilt, List.mem_append, List.mem_singleton]
      rintro e (hmem | rfl)
      · exact ihArgs e hmem
      · exact ihExpr

/-- The functions that the updater registers. -/
def registered : List NamedFunction :=
  finishRegistration (registerInstallFunctions (registerBuiltins []))

/-- No name stands for an operator. -/
theorem registered_built {name : Bytes} {fn : Function}
    (hfind : findFunction registered name = some fn) (argc : Nat) :
    fn.Built argc := by
  have hall : ∀ entry ∈ registerInstallFunctions (registerBuiltins []),
      entry.fn.operands = none := by
    decide
  have hnone : fn.operands = none := hall _ (mem_of_findFunction hfind)
  intro count hcount
  rw [hnone] at hcount
  cases hcount

/-- What `ReadArgs` and its variants read is all there or not used, and in a
script that is parsed without errors a call keeps to its arguments exactly if
their number is right where it is not checked. -/
theorem parsed_callSafe_iff {yyparse : List Lexeme → Option Expr × Nat}
    (hparser : AcceptsGrammar (findFunction registered) yyparse)
    (lexemes : List Lexeme) (root : Expr)
    (hparse : yyparse lexemes = (some root, 0)) (sha1 : Bytes → Bytes)
    (fn : Function) (name : Bytes) (argc : Nat)
    (hcall : root.HasCall fn name argc) :
    (∀ {α : Type} (read : Nat → Body (Option α)) (first count : Nat),
      (readEach read first count).Yields fun args =>
        ∀ values, args = some values → values.length = count) ∧
    (CallSafe sha1 fn name argc ↔ ∀ count ∈ fn.unchecked, argc = count) := by
  obtain ⟨loc, hderives⟩ := hparser.sound lexemes root hparse
  have hbuilt : root.AllBuilt :=
    hderives.allBuilt fun name fn hfind => registered_built hfind
  exact ⟨readEach_assigns, callSafe_iff sha1 name (hbuilt fn name argc hcall)⟩

end Scripts

namespace ArgumentCountsWitness

open EdifyRoundTripWitness

open Classical in
/-- A parser that takes a given derivation of one script. -/
noncomputable def parserFor (find : Bytes → Option Function)
    (script : List Lexeme) (root : Expr) (w : List Lexeme) :
    Option Expr × Nat :=
  if w = script then (some root, 0) else anyDerivation find w

theorem parserFor_accepts {find : Bytes → Option Function}
    {script : List Lexeme} {root : Expr} {loc : YYLTYPE}
    (hderives : Derives find script (.expr root loc)) :
    AcceptsGrammar find (parserFor find script root) where
  sound := by
    intro w e hparse
    unfold parserFor at hparse
    split at hparse
    next hscript =>
      cases hparse
      exact hscript ▸ ⟨loc, hderives⟩
    next => exact (anyDerivation_accepts find).sound w e hparse
  complete := by
    intro w e loc' hother
    unfold parserFor
    split
    · exact ⟨root, rfl⟩
    · exact (anyDerivation_accepts find).complete w e loc' hother

def loc : YYLTYPE := ⟨0, 0⟩

def sleep : Bytes := .ofString "sleep"

theorem find_sleep : findFunction registered sleep = some .SleepFn := by
  decide +kernel

/-- `sleep()` -/
def sleepScript : List Lexeme :=
  [⟨.STRING sleep, loc⟩, ⟨.lparen, loc⟩, ⟨.rparen, loc⟩]

def sleepRoot : Expr := .node .SleepFn sleep [] 0 0

theorem sleep_derives :
    Derives (findFunction registered) sleepScript (.expr sleepRoot loc) :=
  .call loc loc loc find_sleep .empty

theorem sleep_parse :
    parserFor (findFunction registered) sleepScript sleepRoot sleepScript =
      (some sleepRoot, 0) := by
  rw [parserFor, if_pos rfl]

theorem sleep_callSafe_iff :
    CallSafe id .SleepFn sleep 0 ↔
      ∀ count ∈ Function.SleepFn.unchecked, 0 = count :=
  (parsed_callSafe_iff (parserFor_accepts sleep_derives) sleepScript
    sleepRoot sleep_parse id .SleepFn sleep 0 (.here rfl)).2

/-- A script of one call without arguments is parsed, and the call reads the
first argument. -/
theorem sleep_not_callSafe :
    ¬ ∀ (yyparse : List Lexeme → Option Expr × Nat),
      AcceptsGrammar (findFunction registered) yyparse →
      ∀ (lexemes : List Lexeme) (root : Expr),
        yyparse lexemes = (some root, 0) →
        ∀ (fn : Function) (name : Bytes) (argc : Nat),
          root.HasCall fn name argc → CallSafe id fn name argc := by
  intro hall
  have hsafe := hall _ (parserFor_accepts sleep_derives) sleepScript sleepRoot
    sleep_parse .SleepFn sleep 0 (.here rfl)
  have hread : Within 0 (.evaluate 0) := hsafe.within.1
  exact absurd hread (Nat.not_lt_zero 0)

end ArgumentCountsWitness

end Edify

end MetaOS
