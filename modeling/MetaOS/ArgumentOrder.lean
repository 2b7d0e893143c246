/-
bootable/recovery: the order in which functions of scripts evaluate their
arguments, through `ReadArgs` and its variants.

`greater_than_int` hands its arguments to `less_than_int` in the other order,
which is then the order of their effects.  The functions that do not check
the number of their arguments leave some out.
-/
import MetaOS.ArgumentCounts

namespace MetaOS

namespace Edify

open Updater Prog

/-- The argument that an answered call has evaluated, and its value. -/
def evaluation? : (c : Call Outside) × c.Answer Outside.Answer →
    Option (Nat × Option Value)
  | ⟨.evaluate i, (r : Option Bytes)⟩ => some (i, r.map .string)
  | ⟨.evaluateValue i, (r : Option Value)⟩ => some (i, r)
  | _ => none

def evaluations (calls : List ((c : Call Outside) × c.Answer Outside.Answer)) :
    List (Nat × Option Value) :=
  calls.filterMap evaluation?

/-- The arguments from a position on are evaluated as they are written: each
once, up to the last or to the first that is null. -/
inductive InTextOrder (argc : Nat) : Nat → List (Nat × Option Value) → Prop
  | done : InTextOrder argc argc []
  | null {i : Nat} (hi : i < argc) : InTextOrder argc i [(i, none)]
  | next {i : Nat} {v : Value} {rest : List (Nat × Option Value)}
      (hi : i < argc) (hrest : InTextOrder argc (i + 1) rest) :
      InTextOrder argc i ((i, some v) :: rest)

/-- Values, each at its own position. -/
def bound : (i : Nat) → List Value → List (Nat × Option Value)
  | _, [] => []
  | i, v :: values => (i, some v) :: bound (i + 1) values

/-- A call that changes or prints something.  The number that is missing in a
message is read and nothing else. -/
def Changes : Call Outside → Prop
  | .outside .missingArgument => False
  | c => IsEffect c

section Running

variable {S : Type}
  (handler : (c : Call Outside) → S → c.Answer Outside.Answer × S) (s : S)

/-- The function gives up: it sets a message, does nothing else and returns a
null pointer. -/
structure GivesUp (fn : Body Outcome) : Prop where
  null : (fn.eval handler s).1 = Edify.null
  message : ∃ message, ⟨.errmsg message, ()⟩ ∈ fn.trace handler s
  nothing : ∀ x ∈ fn.trace handler s, ¬ Changes x.1

/-- A function of `argc` arguments evaluates all of them in the order of the
text, as far as they are not null, unless it gives up behind some of them. -/
def Ordered (argc : Nat) (fn : Body Outcome) : Prop :=
  InTextOrder argc 0 (evaluations (fn.trace handler s)) ∨
    GivesUp handler s fn ∧ ∃ values, values.length ≤ argc ∧
      evaluations (fn.trace handler s) = bound 0 values

end Running

section Positions

theorem InTextOrder.bound_append {argc i : Nat} {values : List Value}
    {rest : List (Nat × Option Value)}
    (hrest : InTextOrder argc (i + values.length) rest)
    (hle : i + values.length ≤ argc) :
    InTextOrder argc i (bound i values ++ rest) := by
  induction values generalizing i with
  | nil => exact hrest
  | cons v values ih =>
      rw [List.length_cons] at hrest hle
      apply InTextOrder.next (by omega)
      apply ih
      · rwa [show i + 1 + values.length = i + (values.length + 1) by omega]
      · omega

theorem inTextOrder_bound_iff {argc i : Nat} {values : List Value} :
    InTextOrder argc i (bound i values) ↔ argc = i + values.length := by
  induction values generalizing i with
  | nil =>
      constructor
      · rintro ⟨⟩
        rfl
      · rintro rfl
        exact .done
  | cons v values ih =>
      rw [List.length_cons]
      constructor
      · rintro ⟨⟩
        rename_i hi hrest
        have hend := ih.mp hrest
        omega
      · intro hend
        exact .next (by omega) (ih.mpr (by omega))

/-- A null argument among those that are evaluated is the last of them. -/
theorem inTextOrder_null_iff {argc i : Nat} {values : List Value} :
    InTextOrder argc i (bound i values ++ [(i + values.length, none)]) ↔
      i + values.length < argc := by
  induction values generalizing i with
  | nil =>
      constructor
      · rintro ⟨⟩
        assumption
      · exact .null
  | cons v values ih =>
      rw [List.length_cons, show i + (values.length + 1) =
        i + 1 + values.length by omega]
      constructor
      · rintro ⟨⟩
        rename_i hi hrest
        exact ih.mp hrest
      · intro hlt
        exact .next (by omega) (ih.mpr hlt)

theorem not_mem_bound (i j : Nat) (values : List Value) :
    (j, none) ∉ bound i values := by
  induction values generalizing i with
  | nil => exact List.not_mem_nil
  | cons v values ih =>
      intro hmem
      rcases List.mem_cons.mp hmem with hhead | htail
      · cases hhead
      · exact ih (i + 1) htail

theorem bound_append_null_ne {i j k : Nat} {values values' : List Value} :
    bound i values ++ [(j, none)] ≠ bound k values' := by
  intro heq
  have hmem : (j, none) ∈ bound i values ++ [(j, none)] := by simp
  rw [heq] at hmem
  exact not_mem_bound k j values' hmem

theorem length_bound (i : Nat) (values : List Value) :
    (bound i values).length = values.length := by
  induction values generalizing i with
  | nil => rfl
  | cons v values ih => rw [bound, List.length_cons, ih, List.length_cons]

end Positions

section Reading

def Evaluates : Call Outside → Prop
  | .evaluate _ | .evaluateValue _ => True
  | _ => False

abbrev NoEvaluation (c : Call Outside) : Prop := ¬ Evaluates c

theorem evaluation?_eq_none {c : Call Outside} (hc : NoEvaluation c)
    (r : c.Answer Outside.Answer) : evaluation? ⟨c, r⟩ = none := by
  cases c with
  | evaluate i | evaluateValue i => exact absurd trivial hc
  | _ => rfl

theorem not_changes_of_evaluates {c : Call Outside} (hc : Evaluates c) :
    ¬ Changes c := by
  cases c with
  | evaluate i | evaluateValue i => exact id
  | _ => exact hc.elim

theorem ne_errmsg_of_evaluates {c : Call Outside} (hc : Evaluates c)
    (message : Bytes) : c ≠ .errmsg message := by
  rintro rfl
  exact hc

/-- Reading an argument is one evaluation and nothing else. -/
structure Reader {α : Type} (read : Nat → Body (Option α)) (inj : α → Value) :
    Prop where
  evaluations_eq {S : Type}
    (handler : (c : Call Outside) → S → c.Answer Outside.Answer × S) (s : S)
    (i : Nat) : evaluations ((read i).trace handler s) =
      [(i, ((read i).eval handler s).1.map inj)]
  evaluates (i : Nat) : (read i).Issues Evaluates

theorem evaluate_reader : Reader evaluate Value.string where
  evaluations_eq _ _ _ := rfl
  evaluates _ := issues_perform trivial

theorem evaluateValue_reader : Reader evaluateValue id where
  evaluations_eq _ _ _ := by
    simp [evaluateValue, perform, trace, evaluations, evaluation?]
    rfl
  evaluates _ := issues_perform trivial

variable {S : Type}
  {handler : (c : Call Outside) → S → c.Answer Outside.Answer × S} {s : S}

theorem evaluations_append
    (first second : List ((c : Call Outside) × c.Answer Outside.Answer)) :
    evaluations (first ++ second) = evaluations first ++ evaluations second :=
  List.filterMap_append

theorem evaluations_of_issues {α : Type} {prog : Body α}
    (hprog : prog.Issues NoEvaluation) :
    evaluations (prog.trace handler s) = [] := by
  rw [evaluations, List.filterMap_eq_nil_iff]
  intro x hx
  exact evaluation?_eq_none (hprog.trace handler s hx) x.2

theorem act_noEvaluation {α : Type} (action : Action α) :
    (act action).Issues NoEvaluation := by
  apply Issues.hoist
  rintro (message | e)
  · exact issues_perform id
  · exact issues_perform id

variable {α : Type} {read : Nat → Body (Option α)} {inj : α → Value}

/-- The helpers bind each value to its own position, and stop at the first
that is null. -/
theorem readEach_bound
    (handler : (c : Call Outside) → S → c.Answer Outside.Answer × S) (s : S)
    (hread : Reader read inj) (first count : Nat) :
    (∃ args s', (readEach read first count).eval handler s = (some args, s') ∧
      args.length = count ∧
      evaluations ((readEach read first count).trace handler s) =
        bound first (args.map inj)) ∨
    ∃ values s', (readEach read first count).eval handler s = (none, s') ∧
      values.length < count ∧
      evaluations ((readEach read first count).trace handler s) =
        bound first values ++ [(first + values.length, none)] := by
  induction count generalizing s first with
  | zero => exact .inl ⟨[], s, rfl, rfl, rfl⟩
  | succ count ih =>
      rw [readEach, eval_bind, trace_bind, evaluations_append,
        hread.evaluations_eq]
      obtain ⟨arg, s₁⟩ := (read first).eval handler s
      cases arg with
      | none => exact .inr ⟨[], s₁, rfl, by simp, rfl⟩
      | some arg =>
          dsimp only
          rw [eval_bind, trace_bind, evaluations_append]
          obtain ⟨args, s₂, heval, hlength, hbound⟩ |
            ⟨values, s₂, heval, hlength, hbound⟩ := ih s₁ (first + 1)
          · refine .inl ⟨arg :: args, s₂, ?_, ?_, ?_⟩
            · rw [heval]
              rfl
            · rw [List.length_cons, hlength]
            · rw [hbound, heval]
              simp [bound, trace, evaluations]
          · refine .inr ⟨inj arg :: values, s₂, ?_, ?_, ?_⟩
            · rw [heval]
              rfl
            · rw [List.length_cons]
              omega
            · rw [hbound, heval, List.length_cons]
              simp [bound, trace, evaluations, Nat.add_assoc, Nat.add_comm 1]

theorem readEach_evaluates (hread : Reader read inj) (first count : Nat) :
    (readEach read first count).Issues Evaluates :=
  readEach_issues hread.evaluates first count

/-- Whether a function gives up is decided behind what it reads. -/
theorem givesUp_bind_iff {β : Type} {prog : Body β} {k : β → Body Outcome}
    {value : β} {s' : S} (hprog : prog.Issues Evaluates)
    (heval : prog.eval handler s = (value, s')) :
    GivesUp handler s (prog >>= k) ↔ GivesUp handler s' (k value) := by
  have htrace : (prog >>= k).trace handler s =
      prog.trace handler s ++ (k value).trace handler s' := by
    rw [trace_bind, heval]
  have hresult : (prog >>= k).eval handler s = (k value).eval handler s' := by
    rw [eval_bind, heval]
  constructor
  · rintro ⟨hnull, ⟨message, hmessage⟩, hnothing⟩
    rw [htrace] at hmessage hnothing
    refine ⟨hresult ▸ hnull, ⟨message, ?_⟩, ?_⟩
    · rcases List.mem_append.mp hmessage with hread | hrest
      · have heval := hprog.trace handler s hread
        exact absurd rfl (ne_errmsg_of_evaluates heval message)
      · exact hrest
    · intro x hx
      exact hnothing x (List.mem_append_right _ hx)
  · rintro ⟨hnull, ⟨message, hmessage⟩, hnothing⟩
    refine ⟨hresult.symm ▸ hnull, ⟨message, ?_⟩, ?_⟩
    · rw [htrace]
      exact List.mem_append_right _ hmessage
    · intro x hx
      rw [htrace] at hx
      rcases List.mem_append.mp hx with hread | hrest
      · exact not_changes_of_evaluates (hprog.trace handler s hread)
      · exact hnothing x hrest

/-- A function that reads all its arguments and then does its work. -/
theorem inTextOrder_readEach (hread : Reader read inj) {first count argc : Nat}
    {k : Option (List α) → Body Outcome} (hcount : first + count ≤ argc)
    (hnone : (k none).Issues NoEvaluation)
    (hsome : ∀ args s', args.length = count → InTextOrder argc (first + count)
      (evaluations ((k (some args)).trace handler s'))) :
    InTextOrder argc first
      (evaluations ((readEach read first count >>= k).trace handler s)) := by
  rw [trace_bind, evaluations_append]
  obtain ⟨args, s', heval, hlength, hbound⟩ |
    ⟨values, s', heval, hlength, hbound⟩ :=
      readEach_bound handler s hread first count
  · rw [heval, hbound]
    have hmap : (args.map inj).length = count := by
      rw [List.length_map, hlength]
    apply InTextOrder.bound_append
    · rw [hmap]
      exact hsome args s' hlength
    · omega
  · rw [heval, hbound, evaluations_of_issues hnone, List.append_nil,
      inTextOrder_null_iff]
    omega

theorem inTextOrder_of_issues {argc : Nat} {fn : Body Outcome}
    (hfn : fn.Issues NoEvaluation) :
    InTextOrder argc argc (evaluations (fn.trace handler s)) := by
  rw [evaluations_of_issues hfn]
  exact .done

/-- A function that reads some arguments, and then the others or gives up. -/
theorem ordered_bind (hread : Reader read inj) {count argc : Nat}
    {k : Option (List α) → Body Outcome} (hcount : count ≤ argc)
    (hnone : (k none).Issues NoEvaluation)
    (hsome : ∀ args s', args.length = count →
      InTextOrder argc count
        (evaluations ((k (some args)).trace handler s')) ∨
      GivesUp handler s' (k (some args)) ∧
        (k (some args)).Issues NoEvaluation) :
    Ordered handler s argc (readEach read 0 count >>= k) := by
  rw [Ordered, trace_bind, evaluations_append]
  obtain ⟨args, s', heval, hlength, hbound⟩ |
    ⟨values, s', heval, hlength, hbound⟩ :=
      readEach_bound handler s hread 0 count
  · rw [heval, hbound]
    have hmap : (args.map inj).length = count := by
      rw [List.length_map, hlength]
    rcases hsome args s' hlength with hrest | ⟨hgives, hrest⟩
    · left
      apply InTextOrder.bound_append
      · rwa [hmap, Nat.zero_add]
      · omega
    · right
      rw [givesUp_bind_iff (readEach_evaluates hread 0 count) heval]
      refine ⟨hgives, args.map inj, ?_, ?_⟩
      · omega
      · rw [evaluations_of_issues hrest, List.append_nil]
  · left
    rw [heval, hbound, evaluations_of_issues hnone, List.append_nil,
      inTextOrder_null_iff]
    omega

/-- The case of one helper for all arguments. -/
theorem ordered_readEach (hread : Reader read inj) {argc : Nat}
    {k : Option (List α) → Body Outcome}
    (hk : ∀ args, (k args).Issues NoEvaluation) :
    Ordered handler s argc (readEach read 0 argc >>= k) := by
  apply ordered_bind hread (le_refl argc) (hk none)
  intro args s' hlength
  exact .inl (inTextOrder_of_issues (hk (some args)))

/-- A call that is refused for the number of its arguments. -/
theorem ordered_errorAbort (argc : Nat) (message : Bytes) :
    Ordered handler s argc (act (errorAbort message)) := by
  refine .inr ⟨⟨rfl, ⟨abortMessage message, List.mem_cons_self⟩, ?_⟩, [],
    Nat.zero_le _, rfl⟩
  intro x hx
  obtain rfl := List.mem_singleton.mp hx
  exact id

theorem ordered_errmsg (argc : Nat) (message : Bytes) :
    Ordered handler s argc (setErrmsg message >>= fun _ => pure null) := by
  refine .inr ⟨⟨rfl, ⟨message, List.mem_cons_self⟩, ?_⟩, [],
    Nat.zero_le _, rfl⟩
  intro x hx
  obtain rfl := List.mem_singleton.mp hx
  exact id

end Reading

section Functions

variable {S : Type}
  (handler : (c : Call Outside) → S → c.Answer Outside.Answer × S) (s : S)
  (sha1 : Bytes → Bytes) (name : Bytes) (argc : Nat)

theorem takesArgs_ordered (count : Nat) (expected : String)
    (body : List Bytes → Action Outcome) :
    Ordered handler s argc (takesArgs name argc count expected body) := by
  unfold takesArgs
  by_cases hcount : argc = count
  · rw [if_neg (not_not.mpr hcount), ← hcount]
    apply ordered_readEach evaluate_reader
    rintro (_ | args)
    · trivial
    · exact act_noEvaluation (body args)
  · rw [if_pos hcount]
    exact ordered_errorAbort argc _

theorem packageExtractFileFn_ordered :
    Ordered handler s argc (packageExtractFileFn name argc) := by
  unfold packageExtractFileFn
  split
  · exact ordered_errorAbort argc _
  · apply ordered_readEach evaluate_reader
    rintro (_ | _ | ⟨zipPath, _ | ⟨destPath, _ | _⟩⟩)
    · trivial
    · trivial
    · exact act_noEvaluation (extractToBuffer zipPath)
    · exact act_noEvaluation (extractToFile zipPath destPath)
    · trivial

theorem symlinkFn_ordered :
    Ordered handler s argc (symlinkFn name argc) := by
  unfold symlinkFn
  by_cases hnone : argc = 0
  · rw [if_pos hnone]
    exact ordered_errorAbort argc _
  · rw [if_neg hnone]
    left
    rw [trace_bind, evaluations_append, evaluate_reader.evaluations_eq]
    obtain ⟨target, s'⟩ := (evaluate 0).eval handler s
    cases target with
    | none => exact .null (by omega)
    | some target =>
        apply InTextOrder.next (by omega)
        apply inTextOrder_readEach evaluate_reader (by omega)
        · trivial
        · intro srcs s'' _
          rw [show 0 + 1 + (argc - 1) = argc by omega]
          exact inTextOrder_of_issues (act_noEvaluation _)

theorem setPermFn_ordered :
    Ordered handler s argc (setPermFn name argc) := by
  unfold setPermFn
  dsimp only
  generalize 4 + (if decide (name = Bytes.ofString "set_perm_recursive")
    then 1 else 0) = least
  by_cases hfew : argc < least
  · rw [if_pos hfew]
    refine .inr ⟨⟨rfl, ⟨_, List.mem_cons_of_mem _ List.mem_cons_self⟩, ?_⟩,
      [], Nat.zero_le _, rfl⟩
    intro x hx
    rcases List.mem_cons.mp hx with rfl | hx
    · exact id
    · obtain rfl := List.mem_singleton.mp hx
      exact id
  · rw [if_neg hfew]
    apply ordered_readEach evaluate_reader
    rintro (_ | args)
    · trivial
    · exact act_noEvaluation (setPerm name _ args)

theorem applyPatchCheckFn_ordered :
    Ordered handler s argc (applyPatchCheckFn name argc) := by
  unfold applyPatchCheckFn
  by_cases hnone : argc < 1
  · rw [if_pos hnone]
    exact ordered_errorAbort argc _
  · rw [if_neg hnone]
    left
    apply inTextOrder_readEach evaluate_reader (by omega)
    · trivial
    · rintro (_ | ⟨filename, _ | _⟩) s' hlength
      · cases hlength
      · apply inTextOrder_readEach evaluate_reader (by omega)
        · refine (act_noEvaluation _).bind ?_
          rintro (_ | found)
          · trivial
          · exact Issues.ite trivial trivial
        · intro sha1s s'' _
          rw [show 0 + 1 + (argc - 1) = argc by omega]
          refine inTextOrder_of_issues ((act_noEvaluation _).bind ?_)
          rintro (_ | found)
          · trivial
          · exact Issues.ite trivial trivial
      · cases hlength

theorem givesUp_errorAbort (message : Bytes) :
    GivesUp handler s (act (errorAbort message)) := by
  refine ⟨rfl, ⟨abortMessage message, List.mem_cons_self⟩, ?_⟩
  intro x hx
  obtain rfl := List.mem_singleton.mp hx
  exact id

/-- A target size that is no number ends the call before the hashes and
patches are evaluated. -/
theorem applyPatchFn_ordered :
    Ordered handler s argc (applyPatchFn name argc) := by
  unfold applyPatchFn
  by_cases hcount : argc < 6 ∨ argc % 2 = 1
  · rw [if_pos hcount]
    exact ordered_errorAbort argc _
  · rw [if_neg hcount]
    apply ordered_bind evaluate_reader (by omega)
    · trivial
    · intro args s' hlength
      match args, hlength with
      | [source, target, targetSha1, targetSizeStr], _ =>
          dsimp only
          cases byteCount targetSizeStr with
          | none =>
              exact .inr ⟨givesUp_errorAbort handler s' _, act_noEvaluation _⟩
          | some targetSize =>
              left
              apply inTextOrder_readEach evaluateValue_reader (by omega)
              · trivial
              · intro values s'' _
                rw [show 4 + (argc - 4) = argc by omega]
                exact inTextOrder_of_issues (act_noEvaluation _)

theorem uiPrintFn_ordered : Ordered handler s argc (uiPrintFn argc) := by
  apply ordered_readEach evaluate_reader
  rintro (_ | args)
  · trivial
  · exact act_noEvaluation (uiPrint args.flatten)

theorem runProgramFn_ordered :
    Ordered handler s argc (runProgramFn name argc) := by
  unfold runProgramFn
  split
  · exact ordered_errorAbort argc _
  · apply ordered_readEach evaluate_reader
    rintro (_ | args)
    · trivial
    · exact act_noEvaluation (runProgram args)

theorem sha1CheckFn_ordered :
    Ordered handler s argc (sha1CheckFn sha1 name argc) := by
  unfold sha1CheckFn
  split
  · exact ordered_errorAbort argc _
  · apply ordered_readEach evaluateValue_reader
    rintro (_ | _ | ⟨file, values⟩)
    · trivial
    · trivial
    · dsimp only
      split
      · trivial
      · trivial

theorem lessThanIntFn_ordered :
    Ordered handler s argc (lessThanIntFn argc id) := by
  unfold lessThanIntFn
  by_cases htwo : argc = 2
  · rw [if_neg (not_not.mpr htwo), htwo]
    apply ordered_readEach evaluate_reader
    intro args
    split
    · split
      · trivial
      · trivial
    · trivial
  · rw [if_pos htwo]
    exact ordered_errmsg argc _

/-- Among the first `count` arguments, as far as they are read, one that
there is is null. -/
def MeetsNull (count : Nat) : Prop :=
  ∃ i < argc, (i, none) ∈ evaluations ((readArgs count).trace handler s)

variable {handler s argc}

/-- Without a check on the number: all arguments are read if there are just
as many, or if one that there is is null, or if the function gives up. -/
theorem readArgs_ordered_iff {count : Nat}
    {k : Option (List Bytes) → Body Outcome}
    (hk : ∀ args, (k args).Issues NoEvaluation) :
    Ordered handler s argc (readArgs count >>= k) ↔
      argc = count ∨ MeetsNull handler s argc count ∨ count < argc ∧
        ∃ args s', (readArgs count).eval handler s = (some args, s') ∧
          args.length = count ∧ GivesUp handler s' (k (some args)) := by
  rw [Ordered, MeetsNull, trace_bind, evaluations_append]
  obtain ⟨args, s', heval, hlength, hbound⟩ |
    ⟨values, s', heval, hlength, hbound⟩ :=
      readEach_bound handler s evaluate_reader 0 count
  · have hgives := givesUp_bind_iff (k := k)
      (readEach_evaluates evaluate_reader 0 count) heval
    change GivesUp handler s (readArgs count >>= k) ↔ _ at hgives
    change (readArgs count).eval handler s = _ at heval
    change evaluations ((readArgs count).trace handler s) = _ at hbound
    rw [heval, hbound, evaluations_of_issues (hk (some args)),
      List.append_nil, inTextOrder_bound_iff, hgives, List.length_map,
      Nat.zero_add, hlength]
    constructor
    · rintro (hall | ⟨hgives, values, hle, hvalues⟩)
      · exact .inl hall
      · have hlen := congrArg List.length hvalues
        rw [length_bound, length_bound, List.length_map] at hlen
        by_cases hall : argc = count
        · exact .inl hall
        · exact .inr (.inr ⟨by omega, args, s', rfl, hlength, hgives⟩)
    · rintro (hall | ⟨i, hi, hmem⟩ | ⟨hmore, args', s'', heq, -, hgives⟩)
      · exact .inl hall
      · exact absurd hmem (not_mem_bound _ _ _)
      · cases heq
        refine .inr ⟨hgives, args.map .string, ?_, rfl⟩
        rw [List.length_map]
        omega
  · change (readArgs count).eval handler s = _ at heval
    change evaluations ((readArgs count).trace handler s) = _ at hbound
    rw [heval, hbound, evaluations_of_issues (hk none), List.append_nil,
      inTextOrder_null_iff]
    constructor
    · rintro (hlt | ⟨-, values', -, hvalues⟩)
      · exact .inr (.inl ⟨_, hlt, by simp⟩)
      · exact absurd hvalues bound_append_null_ne
    · rintro (hall | ⟨i, hi, hmem⟩ | ⟨-, args, s'', heq, -⟩)
      · left
        omega
      · rcases List.mem_append.mp hmem with hmem | hmem
        · exact absurd hmem (not_mem_bound _ _ _)
        · obtain rfl := congrArg Prod.fst (List.mem_singleton.mp hmem)
          exact .inl hi
      · cases heq

/-- A function whose first call changes something does not give up. -/
theorem not_givesUp_of_call {c : Call Outside}
    {next : c.Answer Outside.Answer → Body Outcome} (hc : Changes c) :
    ¬ GivesUp handler s (.call c next) :=
  fun hgives => hgives.nothing _ List.mem_cons_self hc

variable {name}

theorem fileGetPropFn_ordered_iff :
    Ordered handler s argc (fileGetPropFn name) ↔
      argc = 2 ∨ MeetsNull handler s argc 2 := by
  unfold fileGetPropFn
  rw [readArgs_ordered_iff]
  · constructor
    · rintro (hall | hnull | ⟨-, args, s', -, hlength, hgives⟩)
      · exact .inl hall
      · exact .inr hnull
      · match args, hlength with
        | [filename, key], _ =>
            exact absurd hgives (not_givesUp_of_call trivial)
    · rintro (hall | hnull)
      · exact .inl hall
      · exact .inr (.inl hnull)
  · rintro (_ | _ | ⟨filename, _ | ⟨key, _ | _⟩⟩)
    · trivial
    · trivial
    · trivial
    · exact act_noEvaluation (readPropFile name filename key)
    · trivial

/-- The texts that the first arguments evaluate to, if none is null. -/
def texts (handler : (c : Call Outside) → S → c.Answer Outside.Answer × S)
    (s : S) (count : Nat) : Option (List Bytes) :=
  ((readArgs count).eval handler s).1

theorem writeRawImageFn_ordered_iff :
    Ordered handler s argc (writeRawImageFn name) ↔
      argc = 2 ∨ MeetsNull handler s argc 2 ∨ 2 < argc ∧
        ∃ filename partition, texts handler s 2 = some [filename, partition] ∧
          (partition = [] ∨ filename = []) := by
  unfold writeRawImageFn
  rw [readArgs_ordered_iff]
  · refine or_congr Iff.rfl (or_congr Iff.rfl (and_congr Iff.rfl ?_))
    constructor
    · rintro ⟨args, s', heval, hlength, hgives⟩
      match args, hlength with
      | [filename, partition], _ =>
          refine ⟨filename, partition, congrArg Prod.fst heval, ?_⟩
          by_contra hboth
          rw [not_or] at hboth
          revert hgives
          dsimp only
          unfold writeRawImage
          rw [if_neg hboth.1, if_neg hboth.2]
          exact not_givesUp_of_call trivial
    · rintro ⟨filename, partition, heval, hempty⟩
      refine ⟨[filename, partition], ((readArgs 2).eval handler s).2,
        Prod.ext heval rfl, rfl, ?_⟩
      dsimp only
      unfold writeRawImage
      by_cases hpartition : partition = []
      · rw [if_pos hpartition]
        exact givesUp_errorAbort handler _ _
      · rw [if_neg hpartition, if_pos (hempty.resolve_left hpartition)]
        exact givesUp_errorAbort handler _ _
  · rintro (_ | _ | ⟨filename, _ | ⟨partition, _ | _⟩⟩)
    · trivial
    · trivial
    · trivial
    · exact act_noEvaluation (writeRawImage name filename partition)
    · trivial

theorem applyPatchSpaceFn_ordered_iff :
    Ordered handler s argc (applyPatchSpaceFn name) ↔
      argc = 1 ∨ MeetsNull handler s argc 1 ∨ 1 < argc ∧
        ∃ bytesStr, texts handler s 1 = some [bytesStr] ∧
          byteCount bytesStr = none := by
  unfold applyPatchSpaceFn
  rw [readArgs_ordered_iff]
  · refine or_congr Iff.rfl (or_congr Iff.rfl (and_congr Iff.rfl ?_))
    constructor
    · rintro ⟨args, s', heval, hlength, hgives⟩
      match args, hlength with
      | [bytesStr], _ =>
          refine ⟨bytesStr, congrArg Prod.fst heval, ?_⟩
          revert hgives
          dsimp only
          unfold applyPatchSpace
          cases byteCount bytesStr with
          | none => exact fun _ => rfl
          | some bytes =>
              exact fun hgives =>
                absurd hgives (not_givesUp_of_call trivial)
    · rintro ⟨bytesStr, heval, hsize⟩
      refine ⟨[bytesStr], ((readArgs 1).eval handler s).2,
        Prod.ext heval rfl, rfl, ?_⟩
      dsimp only
      unfold applyPatchSpace
      rw [hsize]
      exact givesUp_errorAbort handler _ _
  · rintro (_ | _ | ⟨bytesStr, _ | _⟩)
    · trivial
    · trivial
    · exact act_noEvaluation (applyPatchSpace name bytesStr)
    · trivial

/-- The second argument is evaluated first. -/
theorem greaterThanIntFn_ordered_iff :
    Ordered handler s argc (greaterThanIntFn argc) ↔ argc ≠ 2 := by
  unfold greaterThanIntFn
  by_cases htwo : argc = 2
  · rw [if_neg (not_not.mpr htwo)]
    refine iff_of_false ?_ (not_not.mpr htwo)
    have hfirst : ∃ v rest, evaluations
        ((lessThanIntFn 2 fun i => 1 - i).trace handler s) =
        (1, v) :: rest := ⟨_, _, rfl⟩
    obtain ⟨v, rest, hfirst⟩ := hfirst
    rw [Ordered, hfirst]
    rintro (horder | ⟨-, values, -, hvalues⟩)
    · cases horder
    · cases values with
      | nil => cases hvalues
      | cons value values => cases hvalues
  · rw [if_pos htwo]
    exact iff_of_true (ordered_errmsg argc _) htwo

end Functions

/-- The functions that read their arguments through `ReadArgs` or one of its
variants. -/
def Function.UsesReadArgs : Function → Prop
  | LessThanIntFn | GreaterThanIntFn => True
  | install .DeleteFn | install .GetPropFn => False
  | install _ => True
  | _ => False

/-- The calls that keep to the order of the text: not `greater_than_int`, and
where the number of arguments is not checked it is right, or an argument is
null or empty or no number, so that the function goes no further. -/
def Function.KeepsOrder {S : Type}
    (handler : (c : Call Outside) → S → c.Answer Outside.Answer × S) (s : S)
    (argc : Nat) : Function → Prop
  | GreaterThanIntFn => argc ≠ 2
  | install .FileGetPropFn => argc = 2 ∨ MeetsNull handler s argc 2
  | install .WriteRawImageFn =>
      argc = 2 ∨ MeetsNull handler s argc 2 ∨ 2 < argc ∧
        ∃ filename partition, texts handler s 2 = some [filename, partition] ∧
          (partition = [] ∨ filename = [])
  | install .ApplyPatchSpaceFn =>
      argc = 1 ∨ MeetsNull handler s argc 1 ∨ 1 < argc ∧
        ∃ bytesStr, texts handler s 1 = some [bytesStr] ∧
          byteCount bytesStr = none
  | _ => True

/-- The functions of the updater that check the number of their arguments. -/
theorem install_ordered (sha1 : Bytes → Bytes) {fn : InstallFn}
    (huses : (Function.install fn).UsesReadArgs)
    (hchecked : (Function.install fn).unchecked = none) (name : Bytes)
    (argc : Nat) {S : Type}
    (handler : (c : Call Outside) → S → c.Answer Outside.Answer × S) (s : S) :
    Ordered handler s argc (fn.body sha1 name argc) := by
  cases fn with
  | MountFn | IsMountedFn | UnmountFn | FormatFn | ShowProgressFn
  | SetProgressFn | PackageExtractDirFn | ReadFileFn =>
      exact takesArgs_ordered handler s name argc _ _ _
  | DeleteFn | GetPropFn => exact huses.elim
  | PackageExtractFileFn =>
      exact packageExtractFileFn_ordered handler s name argc
  | SymlinkFn => exact symlinkFn_ordered handler s name argc
  | SetPermFn => exact setPermFn_ordered handler s name argc
  | FileGetPropFn | WriteRawImageFn | ApplyPatchSpaceFn => cases hchecked
  | ApplyPatchFn => exact applyPatchFn_ordered handler s name argc
  | ApplyPatchCheckFn => exact applyPatchCheckFn_ordered handler s name argc
  | Sha1CheckFn => exact sha1CheckFn_ordered handler s sha1 name argc
  | UIPrintFn => exact uiPrintFn_ordered handler s argc
  | RunProgramFn => exact runProgramFn_ordered handler s name argc

/-- What a helper has read without a null pointer stands at its positions. -/
theorem readEach_binds {α : Type} {read : Nat → Body (Option α)}
    {inj : α → Value} (hread : Reader read inj) {S : Type}
    (handler : (c : Call Outside) → S → c.Answer Outside.Answer × S) (s : S)
    (first count : Nat) (args : List α)
    (hargs : ((readEach read first count).eval handler s).1 = some args) :
    evaluations ((readEach read first count).trace handler s) =
      bound first (args.map inj) := by
  obtain ⟨args', s', heval, -, hbound⟩ | ⟨values, s', heval, -⟩ :=
    readEach_bound handler s hread first count
  · rw [heval] at hargs
    cases hargs
    exact hbound
  · rw [heval] at hargs
    cases hargs

/-- The helpers bind every value to its own position, and a call evaluates
its arguments in the order of the text exactly if it is one of those of
`Function.KeepsOrder`. -/
theorem ordered_iff (sha1 : Bytes → Bytes) {fn : Function}
    (huses : fn.UsesReadArgs) (name : Bytes) (argc : Nat) {S : Type}
    (handler : (c : Call Outside) → S → c.Answer Outside.Answer × S) (s : S) :
    (∀ first count args,
      ((readEach evaluate first count).eval handler s).1 = some args →
      evaluations ((readEach evaluate first count).trace handler s) =
        bound first (args.map .string)) ∧
    (∀ first count args,
      ((readEach evaluateValue first count).eval handler s).1 = some args →
      evaluations ((readEach evaluateValue first count).trace handler s) =
        bound first args) ∧
    (Ordered handler s argc (fn.body sha1 name argc) ↔
      fn.KeepsOrder handler s argc) := by
  refine ⟨readEach_binds evaluate_reader handler s, ?_, ?_⟩
  · intro first count args hargs
    have hbound := readEach_binds evaluateValue_reader handler s first count
      args hargs
    rwa [List.map_id] at hbound
  · cases fn with
    | LessThanIntFn =>
        exact iff_of_true (lessThanIntFn_ordered handler s argc) trivial
    | GreaterThanIntFn => exact greaterThanIntFn_ordered_iff
    | install fn =>
        cases fn with
        | FileGetPropFn => exact fileGetPropFn_ordered_iff
        | WriteRawImageFn => exact writeRawImageFn_ordered_iff
        | ApplyPatchSpaceFn => exact applyPatchSpaceFn_ordered_iff
        | DeleteFn | GetPropFn => exact huses.elim
        | _ =>
            exact iff_of_true
              (install_ordered sha1 huses rfl name argc handler s) trivial
    | _ => exact huses.elim

namespace ArgumentOrderWitness

theorem mount_ordered :
    Ordered obliging () 3
      ((Function.install .MountFn).body id (.ofString "mount") 3) ↔
      (Function.install .MountFn).KeepsOrder obliging () 3 := by
  have huses : (Function.install .MountFn).UsesReadArgs := trivial
  exact (ordered_iff id huses (.ofString "mount") 3 obliging ()).2.2

/-- `greater_than_int(1, 1)` evaluates its second argument first. -/
theorem greaterThanInt_not_ordered :
    ¬ ∀ (fn : Function), fn.UsesReadArgs → ∀ (name : Bytes) (argc : Nat)
      (S : Type)
      (handler : (c : Call Outside) → S → c.Answer Outside.Answer × S) (s : S),
      Ordered handler s argc (fn.body id name argc) := by
  intro hall
  have horder := hall .GreaterThanIntFn trivial (.ofString "greater_than_int")
    2 Unit obliging ()
  exact greaterThanIntFn_ordered_iff.mp horder rfl

end ArgumentOrderWitness

end Edify

end MetaOS
