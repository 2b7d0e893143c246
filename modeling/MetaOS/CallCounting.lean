/-
How often a program makes certain calls.

A program may make a call a fixed number of times in every run, or only in the
runs all of whose answers are fine.  The rules follow the structure of the
program and say nothing about the environment, in which a run is then counted.
-/
import MetaOS.ProgramLogic

namespace MetaOS

namespace Prog

variable {C : Type} {R : C → Type} {S α β : Type} (counted : C → Bool)

/-- The number of counted calls in a run. -/
def count (handler : (c : C) → S → R c × S) (prog : Prog C R α) (state : S) :
    Nat :=
  (prog.trace handler state).countP fun x => counted x.1

/-- Every run makes exactly `n` of the calls. -/
def Makes : (n : Nat) → Prog C R α → Prop
  | n, ret _ => n = 0
  | n, call c next =>
      ∃ m, n = m + (if counted c then 1 else 0) ∧ ∀ r, Makes m (next r)

variable {counted} {handler : (c : C) → S → R c × S} {state : S} {m n : Nat}

theorem count_call (c : C) (next : R c → Prog C R α) :
    (call c next).count counted handler state =
      (next (handler c state).1).count counted handler (handler c state).2 +
        (if counted c then 1 else 0) := by
  rw [count, trace, List.countP_cons]
  rfl

theorem Makes.count_eq {prog : Prog C R α} (hprog : prog.Makes counted n) :
    prog.count counted handler state = n := by
  induction prog generalizing n state with
  | ret value => exact hprog.symm
  | call c next ih =>
      obtain ⟨m, rfl, hnext⟩ := hprog
      rw [count_call, ih _ (hnext _)]

theorem Makes.bind {prog : Prog C R α} {f : α → Prog C R β}
    (hprog : prog.Makes counted m)
    (hnext : ∀ value, (f value).Makes counted n) :
    (prog >>= f).Makes counted (m + n) := by
  induction prog generalizing m with
  | ret value =>
      rw [show m = 0 from hprog, Nat.zero_add]
      exact hnext value
  | call c next ih =>
      obtain ⟨k, rfl, hrest⟩ := hprog
      exact ⟨k + n, Nat.add_right_comm .., fun r => ih r (hrest r)⟩

theorem Makes.of_issues {prog : Prog C R α}
    (hprog : prog.Issues fun c => counted c = false) :
    prog.Makes counted 0 := by
  induction prog with
  | ret value => rfl
  | call c next ih => exact ⟨0, by simp [hprog.1], fun r => ih r (hprog.2 r)⟩

section Fine

variable (counted) (fine : (c : C) → R c → Prop)

/-- Calls that are not counted and whose answers are always fine. -/
def Quiet (prog : Prog C R α) : Prop :=
  prog.Issues fun c => counted c = false ∧ ∀ r, fine c r

/-- A run makes exactly `n` of the calls if and only if all of its answers are
fine. -/
def Meets : (n : Nat) → Prog C R α → Prop
  | n, ret _ => n = 0
  | n, call c next => ∃ m, n = m + (if counted c then 1 else 0) ∧
      ∀ r, (fine c r → Meets m (next r)) ∧
        (¬ fine c r → ∃ k ≠ m, (next r).Makes counted k)

/-- None of the calls is made, and the program returns a value if and only if
all answers are fine. -/
def Guards : Prog C R (Option α) → Prop
  | ret value => value.isSome
  | call c next => counted c = false ∧ ∀ r,
      (fine c r → Guards (next r)) ∧ (¬ fine c r → next r = ret none)

variable {counted fine}

theorem Meets.count_iff {prog : Prog C R α}
    (hprog : prog.Meets counted fine n) :
    prog.count counted handler state = n ↔
      prog.Smooth fine handler state := by
  induction prog generalizing n state with
  | ret value => exact ⟨fun _ => trivial, fun _ => hprog.symm⟩
  | call c next ih =>
      obtain ⟨m, rfl, hnext⟩ := hprog
      obtain ⟨hfine, hbad⟩ := hnext (handler c state).1
      rw [count_call, Nat.add_right_cancel_iff, Smooth]
      by_cases hanswer : fine c (handler c state).1
      · rw [ih _ (hfine hanswer)]
        exact ⟨fun hrest => ⟨hanswer, hrest⟩, fun hall => hall.2⟩
      · obtain ⟨k, hne, hmakes⟩ := hbad hanswer
        rw [hmakes.count_eq]
        exact ⟨fun heq => absurd heq hne, fun hall => absurd hall.1 hanswer⟩

theorem Quiet.bind {prog : Prog C R α} {f : α → Prog C R β}
    (hprog : prog.Quiet counted fine)
    (hnext : ∀ value, (f value).Quiet counted fine) :
    (prog >>= f).Quiet counted fine :=
  Issues.bind hprog hnext

theorem quiet_perform {c : C} (hcounted : counted c = false)
    (hfine : ∀ r, fine c r) :
    (perform c : Prog C R (R c)).Quiet counted fine :=
  issues_perform ⟨hcounted, hfine⟩

theorem Quiet.meets_zero {prog : Prog C R α}
    (hprog : prog.Quiet counted fine) : prog.Meets counted fine 0 := by
  induction prog with
  | ret value => rfl
  | call c next ih =>
      refine ⟨0, by simp [hprog.1.1], fun r => ⟨fun _ => ih r (hprog.2 r), ?_⟩⟩
      exact fun hbad => absurd (hprog.1.2 r) hbad

theorem Quiet.makes {prog : Prog C R α} (hprog : prog.Quiet counted fine) :
    prog.Makes counted 0 := by
  apply Makes.of_issues
  induction prog with
  | ret value => trivial
  | call c next ih => exact ⟨hprog.1.1, fun r => ih r (hprog.2 r)⟩

section Values

variable {values : α → Prop}

/-- What is known of the value that a quiet part returns can be used behind
it. -/
theorem Quiet.meets_bind_of_yields {prog : Prog C R α} {f : α → Prog C R β}
    (hprog : prog.Quiet counted fine) (hvalues : prog.Yields values)
    (hnext : ∀ value, values value → (f value).Meets counted fine n) :
    (prog >>= f).Meets counted fine n := by
  induction prog with
  | ret value => exact hnext value hvalues
  | call c next ih =>
      refine ⟨n, by simp [hprog.1.1], fun r => ⟨fun _ => ?_, fun hbad => ?_⟩⟩
      · exact ih r (hprog.2 r) (hvalues r)
      · exact absurd (hprog.1.2 r) hbad

theorem Quiet.guards_bind_of_yields {prog : Prog C R α}
    {f : α → Prog C R (Option β)} (hprog : prog.Quiet counted fine)
    (hvalues : prog.Yields values)
    (hnext : ∀ value, values value → (f value).Guards counted fine) :
    (prog >>= f).Guards counted fine := by
  induction prog with
  | ret value => exact hnext value hvalues
  | call c next ih =>
      refine ⟨hprog.1.1, fun r => ⟨fun _ => ?_, fun hbad => ?_⟩⟩
      · exact ih r (hprog.2 r) (hvalues r)
      · exact absurd (hprog.1.2 r) hbad

end Values

theorem Quiet.meets_bind {prog : Prog C R α} {f : α → Prog C R β}
    (hprog : prog.Quiet counted fine)
    (hnext : ∀ value, (f value).Meets counted fine n) :
    (prog >>= f).Meets counted fine n :=
  hprog.meets_bind_of_yields (yields_true prog) fun value _ => hnext value

theorem Quiet.guards_bind {prog : Prog C R α}
    {f : α → Prog C R (Option β)} (hprog : prog.Quiet counted fine)
    (hnext : ∀ value, (f value).Guards counted fine) :
    (prog >>= f).Guards counted fine :=
  hprog.guards_bind_of_yields (yields_true prog) fun value _ => hnext value

theorem Guards.meets_andThen {first : Prog C R (Option α)}
    {next : α → Prog C R (Option β)} (hfirst : first.Guards counted fine)
    (hpos : n ≠ 0) (hnext : ∀ value, (next value).Meets counted fine n) :
    (first.andThen next).Meets counted fine n := by
  induction first with
  | ret value =>
      cases value with
      | none => cases hfirst
      | some value => exact hnext value
  | call c rest ih =>
      refine ⟨n, by simp [hfirst.1], fun r => ⟨fun hfine => ?_, fun hbad => ?_⟩⟩
      · exact ih r ((hfirst.2 r).1 hfine)
      · refine ⟨0, hpos.symm, ?_⟩
        change ((rest r).andThen next).Makes counted 0
        rw [(hfirst.2 r).2 hbad]
        rfl

theorem Guards.andThen {first : Prog C R (Option α)}
    {next : α → Prog C R (Option β)} (hfirst : first.Guards counted fine)
    (hnext : ∀ value, (next value).Guards counted fine) :
    (first.andThen next).Guards counted fine := by
  induction first with
  | ret value =>
      cases value with
      | none => cases hfirst
      | some value => exact hnext value
  | call c rest ih =>
      refine ⟨hfirst.1, fun r => ⟨fun hfine => ?_, fun hbad => ?_⟩⟩
      · exact ih r ((hfirst.2 r).1 hfine)
      · change (rest r).andThen next = ret none
        rw [(hfirst.2 r).2 hbad]
        rfl

end Fine

end Prog

end MetaOS
