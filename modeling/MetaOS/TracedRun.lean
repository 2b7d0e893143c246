/-
Runs that log what they touch.  A run may fail with a message, and it may be
cut off before it has a result; the log is kept in every case.
-/
import Mathlib.Logic.Basic

namespace MetaOS

variable {A B α β : Type}

/-- The result of a run, `none` while it goes on, and what it touched. -/
structure TracedRun (A α : Type) where
  result : Option (Except String α)
  touched : List A

namespace TracedRun

def bind (run : TracedRun A α) (next : α → TracedRun A β) : TracedRun A β :=
  match run.result with
  | none => ⟨none, run.touched⟩
  | some (.error message) => ⟨some (.error message), run.touched⟩
  | some (.ok value) =>
      ⟨(next value).result, run.touched ++ (next value).touched⟩

instance : Monad (TracedRun A) where
  pure value := ⟨some (.ok value), []⟩
  bind := bind

/-- Touch one thing. -/
def touch (a : A) : TracedRun A Unit := ⟨some (.ok ()), [a]⟩

/-- Give up. -/
def fail (message : String) : TracedRun A α := ⟨some (.error message), []⟩

/-- The run is cut off. -/
def cutOff : TracedRun A α := ⟨none, []⟩

/-- Go on after a failure. -/
def attempt (run : TracedRun A α) : TracedRun A (Option α) :=
  ⟨run.result.map fun value => .ok value.toOption, run.touched⟩

/-- Call what the run touches by other names. -/
def relabel (f : A → B) (run : TracedRun A α) : TracedRun B α :=
  ⟨run.result, run.touched.map f⟩

@[simp] theorem pure_result (value : α) :
    (pure value : TracedRun A α).result = some (.ok value) := rfl

@[simp] theorem pure_touched (value : α) :
    (pure value : TracedRun A α).touched = [] := rfl

@[simp] theorem touch_result (a : A) : (touch a).result = some (.ok ()) := rfl

@[simp] theorem fail_result (message : String) :
    (fail message : TracedRun A α).result = some (.error message) := rfl

@[simp] theorem cutOff_result : (cutOff : TracedRun A α).result = none := rfl

theorem bind_eq (run : TracedRun A α) (next : α → TracedRun A β) :
    run >>= next = run.bind next := rfl

theorem result_bind (run : TracedRun A α) (next : α → TracedRun A β) :
    (run >>= next).result =
      match run.result with
      | none => none
      | some (.error message) => some (.error message)
      | some (.ok value) => (next value).result := by
  rw [bind_eq, bind]
  rcases run.result with - | - | value <;> rfl

theorem bind_bind {γ : Type} (run : TracedRun A α) (next : α → TracedRun A β)
    (last : β → TracedRun A γ) :
    (run >>= next) >>= last = run >>= fun value => next value >>= last := by
  simp only [bind_eq, bind]
  rcases run.result with - | - | value
  · rfl
  · rfl
  · dsimp only
    rcases (next value).result with - | - | other
    · rfl
    · rfl
    · simp

theorem bind_pure (run : TracedRun A α) : run >>= pure = run := by
  obtain ⟨result, touched⟩ := run
  rcases result with - | - | value
  · rfl
  · rfl
  · simp [bind_eq, bind]

instance : LawfulMonad (TracedRun A) :=
  LawfulMonad.mk' (TracedRun A) bind_pure (fun _ _ => rfl) bind_bind

@[simp] theorem fail_bind (message : String) (next : α → TracedRun A β) :
    (fail message >>= next) = fail message := rfl

theorem result_bind_of_ok {run : TracedRun A α} {next : α → TracedRun A β}
    {value : α} (hok : run.result = some (.ok value)) :
    (run >>= next).result = (next value).result := by
  rw [result_bind, hok]

/-- The result of a sequence depends on the results of its parts. -/
theorem result_bind_congr {run : TracedRun A α}
    {next other : α → TracedRun A β}
    (hnext : ∀ value, (next value).result = (other value).result) :
    (run >>= next).result = (run >>= other).result := by
  simp only [result_bind, hnext]

theorem result_bind_of_none {run : TracedRun A α} {next : α → TracedRun A β}
    (hnone : run.result = none) : (run >>= next).result = none := by
  rw [result_bind, hnone]

/-- A sequence has a result if its parts have. -/
theorem ok_of_bind {run : TracedRun A α} {next : α → TracedRun A β} {value : β}
    (hok : (run >>= next).result = some (.ok value)) :
    ∃ first, run.result = some (.ok first) ∧
      (next first).result = some (.ok value) := by
  rw [result_bind] at hok
  rcases hresult : run.result with - | message | first
  · rw [hresult] at hok
    cases hok
  · rw [hresult] at hok
    cases hok
  · rw [hresult] at hok
    exact ⟨first, rfl, hok⟩

/-- A sequence comes to an end if its parts do. -/
theorem bind_ends {run : TracedRun A α} {next : α → TracedRun A β}
    (hrun : run.result ≠ none)
    (hnext : ∀ value, run.result = some (.ok value) →
      (next value).result ≠ none) : (run >>= next).result ≠ none := by
  rw [result_bind]
  rcases hresult : run.result with - | message | value
  · exact absurd hresult hrun
  · simp
  · exact hnext value hresult

@[simp] theorem touch_bind_result (a : A) (next : TracedRun A β) :
    (touch a >>= fun _ => next).result = next.result := rfl

@[simp] theorem relabel_result (f : A → B) (run : TracedRun A α) :
    (run.relabel f).result = run.result := rfl

/-- Everything the run touches is allowed. -/
def Within (allowed : A → Prop) (run : TracedRun A α) : Prop :=
  ∀ a ∈ run.touched, allowed a

variable {allowed : A → Prop}

theorem within_pure (value : α) :
    (pure value : TracedRun A α).Within allowed := by
  simp [Within]

theorem within_fail (message : String) :
    (fail message : TracedRun A α).Within allowed := by
  simp [Within, fail]

theorem within_cutOff : (cutOff : TracedRun A α).Within allowed := by
  simp [Within, cutOff]

theorem within_touch {a : A} : (touch a).Within allowed ↔ allowed a := by
  simp [Within, touch]

theorem within_attempt {run : TracedRun A α} :
    run.attempt.Within allowed ↔ run.Within allowed := Iff.rfl

theorem within_relabel {allowed : B → Prop} {f : A → B} {run : TracedRun A α} :
    (run.relabel f).Within allowed ↔ run.Within fun a => allowed (f a) := by
  simp [Within, relabel]

/-- Sequencing: what follows is reached only with the value of the first
part. -/
theorem within_bind {run : TracedRun A α} {next : α → TracedRun A β} :
    (run >>= next).Within allowed ↔ run.Within allowed ∧
      ∀ value, run.result = some (.ok value) → (next value).Within allowed := by
  rw [bind_eq, bind]
  rcases hresult : run.result with - | - | value
  · simp [Within]
  · simp [Within]
  · simp only [Within, List.mem_append, Option.some.injEq, Except.ok.injEq,
      forall_eq']
    constructor
    · intro hall
      exact ⟨fun a ha => hall a (Or.inl ha), fun a ha => hall a (Or.inr ha)⟩
    · rintro ⟨hfirst, hnext⟩ a (ha | ha)
      · exact hfirst a ha
      · exact hnext a ha

end TracedRun

end MetaOS
