/-
Programs as trees of system calls.  The environment answers each call through
a relation on states, so one tree stands for every outcome of the calls it
makes.  `Prog.Safe` is the rule the developments below use: an invariant at
every point where a run may be cut off, and a postcondition where it returns.
-/
import Mathlib.Logic.Relation
import Mathlib.Data.Prod.Basic

namespace MetaOS

variable {C : Type} {R : C → Type} {S : Type} {α β : Type}

/-- A program over the calls `C`.  The call `c` is answered in `R c`. -/
inductive Prog (C : Type) (R : C → Type) (α : Type) where
  | ret (value : α)
  | call (c : C) (next : R c → Prog C R α)

namespace Prog

def bind : Prog C R α → (α → Prog C R β) → Prog C R β
  | ret value, f => f value
  | call c next, f => call c fun answer => (next answer).bind f

instance : Monad (Prog C R) where
  pure := ret
  bind := bind

theorem bind_ret (prog : Prog C R α) : prog.bind ret = prog := by
  induction prog with
  | ret value => rfl
  | call c next ih => exact congrArg (call c) (funext ih)

theorem bind_bind {γ : Type} (prog : Prog C R α) (f : α → Prog C R β)
    (g : β → Prog C R γ) :
    (prog.bind f).bind g = prog.bind fun value => (f value).bind g := by
  induction prog with
  | ret value => rfl
  | call c next ih => exact congrArg (call c) (funext ih)

instance : LawfulMonad (Prog C R) :=
  LawfulMonad.mk' (Prog C R) bind_ret (fun _ _ => rfl) bind_bind

/-- Issue one call and return its answer. -/
def perform (c : C) : Prog C R (R c) := call c ret

@[simp] theorem pure_eq_ret (value : α) :
    (pure value : Prog C R α) = ret value := rfl

@[simp] theorem ret_bind (value : α) (f : α → Prog C R β) :
    (ret value >>= f) = f value := rfl

@[simp] theorem call_bind (c : C) (next : R c → Prog C R α)
    (f : α → Prog C R β) :
    (call c next >>= f) = call c fun answer => next answer >>= f := rfl

@[simp] theorem perform_bind (c : C) (f : R c → Prog C R β) :
    (perform c >>= f) = call c f := rfl

/-- Go on with the value that the first program returns, if there is one. -/
def andThen (first : Prog C R (Option α)) (next : α → Prog C R (Option β)) :
    Prog C R (Option β) := do
  match ← first with
  | none => pure none
  | some value => next value

@[simp] theorem ret_none_andThen (next : α → Prog C R (Option β)) :
    (ret none : Prog C R (Option α)).andThen next = ret none := rfl

@[simp] theorem ret_some_andThen (value : α)
    (next : α → Prog C R (Option β)) :
    (ret (some value)).andThen next = next value := rfl

theorem andThen_assoc {γ : Type} (first : Prog C R (Option α))
    (second : α → Prog C R (Option β)) (third : β → Prog C R (Option γ)) :
    (first.andThen second).andThen third =
      first.andThen fun value => (second value).andThen third := by
  induction first with
  | ret value =>
      cases value with
      | none => rfl
      | some value => rfl
  | call c next ih => exact congrArg (call c) (funext ih)

theorem andThen_ret (first : Prog C R (Option α)) :
    (first.andThen fun value => ret (some value)) = first := by
  induction first with
  | ret value =>
      cases value with
      | none => rfl
      | some value => rfl
  | call c next ih => exact congrArg (call c) (funext ih)

/-- The value of a program that reports whether it went well. -/
def whenOk (prog : Prog C R (Bool × α)) : Prog C R (Option α) :=
  prog >>= fun r => ret (if r.1 then some r.2 else none)

/-- A program that gives up as soon as its first part does. -/
theorem whenOk_bind (first : Prog C R (Bool × α))
    (next : α → Prog C R (Bool × β)) (bad : Bool × α → β) :
    whenOk (first >>= fun r =>
        if r.1 then next r.2 else ret (false, bad r)) =
      first.whenOk.andThen fun value => (next value).whenOk := by
  induction first with
  | ret r =>
      obtain ⟨ok, value⟩ := r
      cases ok with
      | false => rfl
      | true => rfl
  | call c next ih => exact congrArg (call c) (funext ih)

/-- Going on only when the first part went well. -/
theorem bind_of_whenOk (first : Prog C R (Bool × α))
    (next : α → Prog C R β) (bad : β) :
    (first >>= fun r => if r.1 then next r.2 else ret bad) =
      first.whenOk >>= fun value =>
        match value with
        | none => ret bad
        | some value => next value := by
  induction first with
  | ret r =>
      obtain ⟨ok, value⟩ := r
      cases ok with
      | false => rfl
      | true => rfl
  | call c next ih => exact congrArg (call c) (funext ih)

theorem whenOk_map (prog : Prog C R (Bool × α)) (f : α → β) :
    whenOk (prog >>= fun r => ret (r.1, f r.2)) =
      prog.whenOk.andThen fun value => ret (some (f value)) := by
  induction prog with
  | ret r =>
      obtain ⟨ok, value⟩ := r
      cases ok with
      | false => rfl
      | true => rfl
  | call c next ih => exact congrArg (call c) (funext ih)

/-- How the environment answers a call, and what it does to the state. -/
abbrev Semantics (C : Type) (R : C → Type) (S : Type) :=
  (c : C) → S → R c → S → Prop

/-- One call is answered. -/
inductive Step (sem : Semantics C R S) :
    Prog C R α × S → Prog C R α × S → Prop
  | answer {c : C} {next : R c → Prog C R α} {state after : S} {r : R c}
      (happ : sem c state r after) :
      Step sem (call c next, state) (next r, after)

/-- Every configuration a run may be cut off in. -/
abbrev Reaches (sem : Semantics C R S) :
    Prog C R α × S → Prog C R α × S → Prop :=
  Relation.ReflTransGen (Step sem)

/-- `inv` holds of the state before and after every call, and `post` holds of
the value and the state at every return. -/
def Safe (sem : Semantics C R S) (inv : S → Prop) (post : α → S → Prop) :
    Prog C R α → S → Prop
  | ret value, state => inv state ∧ post value state
  | call c next, state =>
      inv state ∧
        ∀ r after, sem c state r after → Safe sem inv post (next r) after

variable {sem : Semantics C R S} {inv : S → Prop} {post : α → S → Prop}

theorem safe_call {c : C} {next : R c → Prog C R α} {state : S} :
    Safe sem inv post (call c next) state ↔
      inv state ∧
        ∀ r after, sem c state r after → Safe sem inv post (next r) after :=
  Iff.rfl

theorem Safe.now {prog : Prog C R α} {state : S}
    (hsafe : Safe sem inv post prog state) : inv state := by
  cases prog with
  | ret value => exact hsafe.1
  | call c next => exact hsafe.1

theorem Safe.step {before after : Prog C R α × S}
    (hsafe : Safe sem inv post before.1 before.2)
    (hstep : Step sem before after) :
    Safe sem inv post after.1 after.2 := by
  cases hstep with
  | answer happ => exact hsafe.2 _ _ happ

/-- The run rule: safety is inherited by every configuration of a run. -/
theorem Safe.reaches {before after : Prog C R α × S}
    (hsafe : Safe sem inv post before.1 before.2)
    (hreach : Reaches sem before after) :
    Safe sem inv post after.1 after.2 := by
  induction hreach with
  | refl => exact hsafe
  | tail _ hstep ih => exact ih.step hstep

theorem Safe.inv_of_reaches {prog rest : Prog C R α} {state after : S}
    (hsafe : Safe sem inv post prog state)
    (hreach : Reaches sem (prog, state) (rest, after)) : inv after :=
  (hsafe.reaches hreach).now

theorem Safe.post_of_reaches {prog : Prog C R α} {state after : S} {value : α}
    (hsafe : Safe sem inv post prog state)
    (hreach : Reaches sem (prog, state) (ret value, after)) :
    post value after :=
  (hsafe.reaches hreach).2

theorem Safe.mono {prog : Prog C R α} {state : S}
    {inv' : S → Prop} {post' : α → S → Prop}
    (hsafe : Safe sem inv post prog state)
    (hinv : ∀ state, inv state → inv' state)
    (hpost : ∀ value state, inv state → post value state → post' value state) :
    Safe sem inv' post' prog state := by
  induction prog generalizing state with
  | ret value => exact ⟨hinv _ hsafe.1, hpost _ _ hsafe.1 hsafe.2⟩
  | call c next ih =>
      exact ⟨hinv _ hsafe.1, fun r after happ => ih r (hsafe.2 r after happ)⟩

theorem Safe.perform {c : C} {post : R c → S → Prop} {state : S}
    (hinv : inv state)
    (hstep : ∀ r after, sem c state r after → inv after ∧ post r after) :
    Safe sem inv post (perform c) state :=
  ⟨hinv, hstep⟩

/-- Sequencing: the first part ends where the second part is safe. -/
theorem Safe.bind {prog : Prog C R α} {f : α → Prog C R β} {state : S}
    {post' : β → S → Prop}
    (hsafe : Safe sem inv post prog state)
    (hnext : ∀ value state, inv state → post value state →
      Safe sem inv post' (f value) state) :
    Safe sem inv post' (prog >>= f) state := by
  induction prog generalizing state with
  | ret value => exact hnext value state hsafe.1 hsafe.2
  | call c next ih =>
      exact ⟨hsafe.1, fun r after happ => ih r (hsafe.2 r after happ)⟩

theorem Safe.and {prog : Prog C R α} {state : S} {inv' : S → Prop}
    {post' : α → S → Prop} (hfirst : Safe sem inv post prog state)
    (hsecond : Safe sem inv' post' prog state) :
    Safe sem (fun state => inv state ∧ inv' state)
      (fun value state => post value state ∧ post' value state) prog state := by
  induction prog generalizing state with
  | ret value => exact ⟨⟨hfirst.1, hsecond.1⟩, hfirst.2, hsecond.2⟩
  | call c next ih =>
      exact ⟨⟨hfirst.1, hsecond.1⟩, fun r after happ =>
        ih r (hfirst.2 r after happ) (hsecond.2 r after happ)⟩

/-- What holds of the value of a program that went well. -/
theorem Safe.of_whenOk {prog : Prog C R (Bool × α)} {state : S}
    (hsafe : Safe sem inv
      (fun r state => ∀ value, r = some value → post value state)
      prog.whenOk state) :
    Safe sem inv (fun r state => r.1 = true → post r.2 state) prog state := by
  induction prog generalizing state with
  | ret r =>
      refine ⟨hsafe.1, fun hok => ?_⟩
      exact hsafe.2 r.2 (if_pos hok)
  | call c next ih =>
      exact ⟨hsafe.1, fun r after happ => ih r (hsafe.2 r after happ)⟩

/-- Fewer answers keep a program safe. -/
theorem Safe.restrict {sem' : Semantics C R S}
    (hsem : ∀ c state r after, sem' c state r after → sem c state r after)
    {prog : Prog C R α} {state : S} (hsafe : Safe sem inv post prog state) :
    Safe sem' inv post prog state := by
  induction prog generalizing state with
  | ret value => exact hsafe
  | call c next ih =>
      exact ⟨hsafe.1, fun r after happ =>
        ih r (hsafe.2 r after (hsem c state r after happ))⟩

/-- Every run comes to an end, and `post` holds there. -/
def Returns (sem : Semantics C R S) (post : α → S → Prop) :
    Prog C R α → S → Prop
  | ret value, state => post value state
  | call c next, state =>
      (∃ r after, sem c state r after) ∧
        ∀ r after, sem c state r after → Returns sem post (next r) after

theorem Returns.bind {prog : Prog C R α} {f : α → Prog C R β} {state : S}
    {post' : β → S → Prop} (hprog : Returns sem post prog state)
    (hnext : ∀ value state, post value state →
      Returns sem post' (f value) state) :
    Returns sem post' (prog >>= f) state := by
  induction prog generalizing state with
  | ret value => exact hnext value state hprog
  | call c next ih =>
      exact ⟨hprog.1, fun r after happ => ih r (hprog.2 r after happ)⟩

theorem Returns.perform {c : C} {post : R c → S → Prop} {state : S}
    (hsome : ∃ r after, sem c state r after)
    (hstep : ∀ r after, sem c state r after → post r after) :
    Returns sem post (perform c) state :=
  ⟨hsome, hstep⟩

/-- Every call the program can issue is an allowed one. -/
def Issues (allowed : C → Prop) : Prog C R α → Prop
  | ret _ => True
  | call c next => allowed c ∧ ∀ r, (next r).Issues allowed

theorem Issues.bind {allowed : C → Prop} {prog : Prog C R α}
    {f : α → Prog C R β} (hprog : prog.Issues allowed)
    (hnext : ∀ value, (f value).Issues allowed) :
    (prog >>= f).Issues allowed := by
  induction prog with
  | ret value => exact hnext value
  | call c next ih => exact ⟨hprog.1, fun r => ih r (hprog.2 r)⟩

theorem issues_perform {allowed : C → Prop} {c : C} (hc : allowed c) :
    (perform c : Prog C R (R c)).Issues allowed :=
  ⟨hc, fun _ => trivial⟩

theorem Issues.ite {allowed : C → Prop} {p : Prop} [Decidable p]
    {first second : Prog C R α} (hfirst : first.Issues allowed)
    (hsecond : second.Issues allowed) :
    (if p then first else second).Issues allowed := by
  split
  · exact hfirst
  · exact hsecond

theorem Safe.of_issues {allowed : C → Prop}
    (hcall : ∀ {c state r after}, allowed c → inv state →
      sem c state r after → inv after)
    {prog : Prog C R α} (hprog : prog.Issues allowed) {state : S}
    (hinv : inv state) : Safe sem inv (fun _ _ => True) prog state := by
  induction prog generalizing state with
  | ret value => exact ⟨hinv, trivial⟩
  | call c next ih =>
      exact ⟨hinv, fun r after happ =>
        ih r (hprog.2 r) (hcall hprog.1 hinv happ)⟩

/-- Every value the program can return, whatever the answers. -/
def Yields (values : α → Prop) : Prog C R α → Prop
  | ret value => values value
  | call _ next => ∀ r, (next r).Yields values

theorem Yields.bind {values : α → Prop} {values' : β → Prop}
    {prog : Prog C R α} {f : α → Prog C R β} (hprog : prog.Yields values)
    (hnext : ∀ value, values value → (f value).Yields values') :
    (prog >>= f).Yields values' := by
  induction prog with
  | ret value => exact hnext value hprog
  | call c next ih => exact fun r => ih r (hprog r)

theorem Yields.mono {values values' : α → Prop} {prog : Prog C R α}
    (hprog : prog.Yields values)
    (hvalues : ∀ value, values value → values' value) :
    prog.Yields values' := by
  induction prog with
  | ret value => exact hvalues value hprog
  | call c next ih => exact fun r => ih r (hprog r)

theorem yields_true (prog : Prog C R α) : prog.Yields fun _ => True := by
  induction prog with
  | ret value => trivial
  | call c next ih => exact ih

/-- What follows a program only matters on the values it can return. -/
theorem Yields.bind_congr {values : α → Prop} {prog : Prog C R α}
    {f g : α → Prog C R β} (hprog : prog.Yields values)
    (hsame : ∀ value, values value → f value = g value) :
    (prog >>= f) = prog >>= g := by
  induction prog with
  | ret value => exact hsame value hprog
  | call c next ih =>
      exact congrArg (call c) (funext fun r => ih r (hprog r))

theorem yields_of_whenOk (values : α → Prop) {prog : Prog C R (Bool × α)}
    (hprog : prog.whenOk.Yields fun r => ∀ value, r = some value →
      values value) : prog.Yields fun r => r.1 = true → values r.2 := by
  induction prog with
  | ret r =>
      intro hok
      exact hprog r.2 (if_pos hok)
  | call c next ih => exact fun r => ih r (hprog r)

theorem Yields.andThen {values : Option α → Prop} {values' : Option β → Prop}
    {first : Prog C R (Option α)} {next : α → Prog C R (Option β)}
    (hfirst : first.Yields values) (hnone : values' none)
    (hnext : ∀ value, values (some value) → (next value).Yields values') :
    (first.andThen next).Yields values' := by
  induction first with
  | ret value =>
      cases value with
      | none => exact hnone
      | some value => exact hnext value hfirst
  | call c next ih => exact fun r => ih r (hfirst r)

theorem Safe.of_yields {values : α → Prop} {prog : Prog C R α}
    (hprog : prog.Yields values) {state : S} :
    Safe sem (fun _ => True) (fun value _ => values value) prog state := by
  induction prog generalizing state with
  | ret value => exact ⟨trivial, hprog⟩
  | call c next ih => exact ⟨trivial, fun r _ _ => ih r (hprog r)⟩

/-- Once one of its calls has failed, the program returns a bad value. -/
def Aborts (fails : (c : C) → R c → Prop) (bad : α → Prop) :
    Prog C R α → Prop
  | ret _ => True
  | call c next =>
      ∀ r, (next r).Aborts fails bad ∧ (fails c r → (next r).Yields bad)

theorem aborts_perform {fails : (c : C) → R c → Prop} {c : C} :
    (perform c : Prog C R (R c)).Aborts fails (fails c) :=
  fun _ => ⟨trivial, fun hfail => hfail⟩

theorem Aborts.ite {fails : (c : C) → R c → Prop} {bad : α → Prop}
    {p : Prop} [Decidable p] {first second : Prog C R α}
    (hfirst : first.Aborts fails bad) (hsecond : second.Aborts fails bad) :
    (if p then first else second).Aborts fails bad := by
  split
  · exact hfirst
  · exact hsecond

theorem Aborts.bind {fails : (c : C) → R c → Prop} {bad : α → Prop}
    {bad' : β → Prop} {prog : Prog C R α} {f : α → Prog C R β}
    (hprog : prog.Aborts fails bad)
    (hnext : ∀ value, (f value).Aborts fails bad')
    (hbad : ∀ value, bad value → (f value).Yields bad') :
    (prog >>= f).Aborts fails bad' := by
  induction prog with
  | ret value => exact hnext value
  | call c next ih =>
      intro r
      exact ⟨ih r (hprog r).1, fun hfail => ((hprog r).2 hfail).bind hbad⟩

/-- Run a program inside a larger signature, call by call. -/
def hoist {C' : Type} {R' : C' → Type} (f : (c : C) → Prog C' R' (R c)) :
    Prog C R α → Prog C' R' α
  | ret value => ret value
  | call c next => f c >>= fun answer => (next answer).hoist f

/-- A hoisted program is safe if each hoisted call acts on the part of the
state selected by `get` as the original call does and keeps `frame`. -/
theorem Safe.hoist {C' : Type} {R' : C' → Type} {S' : Type}
    {sem' : Semantics C' R' S'} {f : (c : C) → Prog C' R' (R c)}
    (get : S' → S) (frame : S' → Prop) {inv' : S' → Prop}
    (hcall : ∀ c state', frame state' → inv (get state') →
      Safe sem' inv'
        (fun r after' => sem c (get state') r (get after') ∧ frame after')
        (f c) state')
    (hinv : ∀ state', frame state' → inv (get state') → inv' state')
    {prog : Prog C R α} {state' : S'} (hframe : frame state')
    (hsafe : Safe sem inv post prog (get state')) :
    Safe sem' inv' (fun value after' => post value (get after') ∧ frame after')
      (prog.hoist f) state' := by
  induction prog generalizing state' with
  | ret value => exact ⟨hinv _ hframe hsafe.1, hsafe.2, hframe⟩
  | call c next ih =>
      refine Safe.bind (hcall c state' hframe hsafe.1) ?_
      rintro r after' - ⟨happ, hkeep⟩
      exact ih r hkeep (hsafe.2 r _ happ)

/-- An environment that always gives the same answer. -/
def eval (handler : (c : C) → S → R c × S) : Prog C R α → S → α × S
  | ret value, state => (value, state)
  | call c next, state =>
      (next (handler c state).1).eval handler (handler c state).2

section Eval

variable (handler : (c : C) → S → R c × S)

@[simp] theorem eval_ret (value : α) (state : S) :
    (ret value : Prog C R α).eval handler state = (value, state) := rfl

@[simp] theorem eval_call (c : C) (next : R c → Prog C R α) (state : S) :
    (call c next).eval handler state =
      (next (handler c state).1).eval handler (handler c state).2 := rfl

@[simp] theorem eval_bind (prog : Prog C R α) (f : α → Prog C R β)
    (state : S) :
    (prog >>= f).eval handler state =
      (f (prog.eval handler state).1).eval handler
        (prog.eval handler state).2 := by
  induction prog generalizing state with
  | ret value => rfl
  | call c next ih => exact ih _ _

theorem Yields.eval {values : α → Prop} {prog : Prog C R α}
    (hprog : prog.Yields values) (state : S) :
    values (prog.eval handler state).1 := by
  induction prog generalizing state with
  | ret value => exact hprog
  | call c next ih => exact ih _ (hprog _) _

/-- A fixed environment is one of the environments its answers allow. -/
theorem reaches_eval (hallowed : ∀ c state,
      sem c state (handler c state).1 (handler c state).2)
    (prog : Prog C R α) (state : S) :
    Reaches sem (prog, state)
      (ret (prog.eval handler state).1, (prog.eval handler state).2) := by
  induction prog generalizing state with
  | ret value => exact Relation.ReflTransGen.refl
  | call c next ih =>
      exact Relation.ReflTransGen.head (Step.answer (hallowed c state))
        (ih _ _)

/-- If a call either is answered by the fixed environment or fails, then so
does a program that aborts. -/
theorem Safe.of_aborts {fails : (c : C) → R c → Prop} {bad : α → Prop}
    (hsem : ∀ {c state r after}, sem c state r after →
      (r, after) = handler c state ∨ fails c r)
    {prog : Prog C R α} (hprog : prog.Aborts fails bad) {state : S} :
    Safe sem (fun _ => True)
      (fun value after => bad value ∨ (value, after) = prog.eval handler state)
      prog state := by
  induction prog generalizing state with
  | ret value => exact ⟨trivial, Or.inr rfl⟩
  | call c next ih =>
      refine ⟨trivial, ?_⟩
      intro r after happ
      rcases hsem happ with hsame | hfail
      · rw [eval_call, ← hsame]
        exact ih r (hprog r).1
      · exact (Safe.of_yields ((hprog r).2 hfail)).mono (fun _ h => h)
          fun _ _ _ hbad => Or.inl hbad

end Eval

/-- The fixed environment, except that a call may fail now and then; the
second part of the state says whether one has. -/
def mayFail (handler : (c : C) → S → R c × S) (fails : (c : C) → R c → Prop) :
    Semantics C R (S × Bool) := fun c state r after =>
  (r, after.1) = handler c state.1 ∧ after.2 = state.2 ∨
    fails c r ∧ after = (state.1, true)

section MayFail

variable {handler : (c : C) → S → R c × S} {fails : (c : C) → R c → Prop}

/-- No call needs to fail. -/
theorem Safe.of_mayFail {inv : S × Bool → Prop} {post : α → S × Bool → Prop}
    {prog : Prog C R α} {state : S} {failed : Bool}
    (hsafe : Safe (mayFail handler fails) inv post prog (state, failed)) :
    post (prog.eval handler state).1
      ((prog.eval handler state).2, failed) := by
  induction prog generalizing state with
  | ret value => exact hsafe.2
  | call c next ih => exact ih _ (hsafe.2 _ (_, failed) (Or.inl ⟨rfl, rfl⟩))

/-- A failure is not forgotten. -/
theorem Safe.failed {values : α → Prop} {prog : Prog C R α}
    (hprog : prog.Yields values) {state : S} :
    Safe (mayFail handler fails) (fun _ => True)
      (fun value after => after.2 = true ∧ values value) prog
      (state, true) := by
  induction prog generalizing state with
  | ret value => exact ⟨trivial, rfl, hprog⟩
  | call c next ih =>
      refine ⟨trivial, fun r after happ => ?_⟩
      have hflag : after.2 = true := by
        rcases happ with ⟨-, hflag⟩ | ⟨-, rfl⟩
        · exact hflag
        · rfl
      have hafter : after = (after.1, true) := Prod.ext rfl hflag
      rw [hafter]
      exact ih r (hprog r)

/-- A program that aborts either fails or runs as in the fixed
environment. -/
theorem Safe.mayFail {bad : α → Prop} {prog : Prog C R α}
    (hprog : prog.Aborts fails bad) {state : S} {failed : Bool} :
    Safe (mayFail handler fails) (fun _ => True)
      (fun value after => after.2 = true ∧ bad value ∨
        value = (prog.eval handler state).1 ∧
          after = ((prog.eval handler state).2, failed))
      prog (state, failed) := by
  induction prog generalizing state with
  | ret value => exact ⟨trivial, Or.inr ⟨rfl, rfl⟩⟩
  | call c next ih =>
      refine ⟨trivial, fun r after happ => ?_⟩
      rcases happ with ⟨hsame, hflag⟩ | ⟨hfail, rfl⟩
      · have hafter : after = ((handler c state).2, failed) := by
          rw [← hsame]
          exact Prod.ext rfl hflag
        have hr : r = (handler c state).1 := by
          rw [← hsame]
        rw [hafter, hr]
        exact ih _ (hprog _).1
      · exact (Safe.failed ((hprog r).2 hfail)).mono (fun _ h => h)
          fun _ _ _ hbad => Or.inl hbad

end MayFail

/-- Fewer failures. -/
theorem Aborts.mono {fails fails' : (c : C) → R c → Prop} {bad : α → Prop}
    {prog : Prog C R α} (hprog : prog.Aborts fails bad)
    (hfails : ∀ c r, fails' c r → fails c r) : prog.Aborts fails' bad := by
  induction prog with
  | ret value => trivial
  | call c next ih =>
      intro r
      exact ⟨ih r (hprog r).1, fun hfail => (hprog r).2 (hfails c r hfail)⟩

/-- Whatever fine answers it is given, the program returns a good value. -/
def Succeeds (fine : (c : C) → R c → Prop) (good : α → Prop) :
    Prog C R α → Prop
  | ret value => good value
  | call c next => ∀ r, fine c r → (next r).Succeeds fine good

theorem Succeeds.bind {fine : (c : C) → R c → Prop} {good : α → Prop}
    {good' : β → Prop} {prog : Prog C R α} {f : α → Prog C R β}
    (hprog : prog.Succeeds fine good)
    (hnext : ∀ value, good value → (f value).Succeeds fine good') :
    (prog >>= f).Succeeds fine good' := by
  induction prog with
  | ret value => exact hnext value hprog
  | call c next ih => exact fun r hfine => ih r (hprog r hfine)

/-- Every answer of the fixed environment is fine. -/
def Smooth (fine : (c : C) → R c → Prop) (handler : (c : C) → S → R c × S) :
    Prog C R α → S → Prop
  | ret _, _ => True
  | call c next, state => fine c (handler c state).1 ∧
      (next (handler c state).1).Smooth fine handler (handler c state).2

theorem Smooth.of_all {fine : (c : C) → R c → Prop}
    {handler : (c : C) → S → R c × S}
    (hfine : ∀ c state, fine c (handler c state).1) (prog : Prog C R α)
    (state : S) : prog.Smooth fine handler state := by
  induction prog generalizing state with
  | ret value => trivial
  | call c next ih => exact ⟨hfine c state, ih _ _⟩

theorem Succeeds.eval {fine : (c : C) → R c → Prop} {good : α → Prop}
    {handler : (c : C) → S → R c × S} {prog : Prog C R α} {state : S}
    (hprog : prog.Succeeds fine good)
    (hsmooth : prog.Smooth fine handler state) :
    good (prog.eval handler state).1 := by
  induction prog generalizing state with
  | ret value => exact hprog
  | call c next ih => exact ih _ (hprog _ hsmooth.1) hsmooth.2

/-- The calls of the run in a fixed environment, with their answers. -/
def trace (handler : (c : C) → S → R c × S) :
    Prog C R α → S → List ((c : C) × R c)
  | ret _, _ => []
  | call c next, state => ⟨c, (handler c state).1⟩ ::
      (next (handler c state).1).trace handler (handler c state).2

theorem trace_bind (handler : (c : C) → S → R c × S) (prog : Prog C R α)
    (f : α → Prog C R β) (state : S) :
    (prog >>= f).trace handler state = prog.trace handler state ++
      (f (prog.eval handler state).1).trace handler
        (prog.eval handler state).2 := by
  induction prog generalizing state with
  | ret value => rfl
  | call c next ih => exact congrArg (List.cons _) (ih _ _)

theorem Issues.trace {allowed : C → Prop} {prog : Prog C R α}
    (hprog : prog.Issues allowed) (handler : (c : C) → S → R c × S)
    (state : S) {x : (c : C) × R c} (hx : x ∈ prog.trace handler state) :
    allowed x.1 := by
  induction prog generalizing state with
  | ret value => cases hx
  | call c next ih =>
      rcases List.mem_cons.mp hx with rfl | hrest
      · exact hprog.1
      · exact ih _ (hprog.2 _) _ hrest

/-- The calls of every run, with their answers, and its value are such. -/
def Traced : Prog C R α → (List ((c : C) × R c) → α → Prop) → Prop
  | ret value, post => post [] value
  | call c next, post =>
      ∀ r, (next r).Traced fun calls value => post (⟨c, r⟩ :: calls) value

section Traced

variable {post : List ((c : C) × R c) → α → Prop} {prog : Prog C R α}

theorem Traced.mono {post' : List ((c : C) × R c) → α → Prop}
    (hprog : prog.Traced post)
    (hpost : ∀ calls value, post calls value → post' calls value) :
    prog.Traced post' := by
  induction prog generalizing post post' with
  | ret value => exact hpost [] value hprog
  | call c next ih => exact fun r => ih r (hprog r) fun calls => hpost _

/-- Sequencing: the calls of the second part follow those of the first. -/
theorem Traced.bind {f : α → Prog C R β}
    {post' : List ((c : C) × R c) → β → Prop} (hprog : prog.Traced post)
    (hnext : ∀ calls value, post calls value →
      (f value).Traced fun rest value' => post' (calls ++ rest) value') :
    (prog >>= f).Traced post' := by
  induction prog generalizing post post' with
  | ret value => exact hnext [] value hprog
  | call c next ih =>
      exact fun r => ih r (hprog r) fun calls => hnext (⟨c, r⟩ :: calls)

theorem Issues.traced {allowed : C → Prop} (hprog : prog.Issues allowed) :
    prog.Traced fun calls _ => ∀ x ∈ calls, allowed x.1 := by
  induction prog with
  | ret value =>
      intro x hx
      cases hx
  | call c next ih =>
      intro r
      apply (ih r (hprog.2 r)).mono
      intro calls value hcalls
      exact List.forall_mem_cons.mpr ⟨hprog.1, hcalls⟩

/-- The run in a fixed environment is one of them. -/
theorem Traced.run (hprog : prog.Traced post)
    (handler : (c : C) → S → R c × S) (state : S) :
    post (prog.trace handler state) (prog.eval handler state).1 := by
  induction prog generalizing post state with
  | ret value => exact hprog
  | call c next ih => exact ih _ (hprog _) _

end Traced

theorem Issues.hoist {C' : Type} {R' : C' → Type} {allowed : C' → Prop}
    {f : (c : C) → Prog C' R' (R c)} (hcall : ∀ c, (f c).Issues allowed)
    (prog : Prog C R α) : (prog.hoist f).Issues allowed := by
  induction prog with
  | ret value => trivial
  | call c next ih => exact (hcall c).bind ih

section Heeds

variable (fails : (c : C) → R c → Prop) (effect : C → Prop) (bad : α)

/-- As soon as a call fails the program returns, and no call behind an effect
can fail. -/
def Heeds : Prog C R α → Prop
  | ret _ => True
  | call c next =>
      (effect c → ∀ r, (next r).Issues fun c => ∀ r, ¬ fails c r) ∧
        ∀ r, (fails c r → next r = ret bad) ∧ (next r).Heeds

variable {fails effect bad}

theorem Heeds.of_issues {prog : Prog C R α}
    (hprog : prog.Issues fun c => ∀ r, ¬ fails c r) :
    prog.Heeds fails effect bad := by
  induction prog with
  | ret value => trivial
  | call c next ih =>
      refine ⟨fun _ => hprog.2, fun r => ⟨?_, ih r (hprog.2 r)⟩⟩
      exact fun hfail => absurd hfail (hprog.1 r)

/-- A run in which a call fails has no effect and a bad end. -/
theorem Heeds.run {prog : Prog C R α} (hprog : prog.Heeds fails effect bad)
    (hpure : ∀ c r, fails c r → ¬ effect c)
    {handler : (c : C) → S → R c × S} {state : S}
    (hfail : ∃ x ∈ prog.trace handler state, fails x.1 x.2) :
    (prog.eval handler state).1 = bad ∧
      ∀ x ∈ prog.trace handler state, ¬ effect x.1 := by
  induction prog generalizing state with
  | ret value =>
      obtain ⟨x, hx, -⟩ := hfail
      cases hx
  | call c next ih =>
      have hnext := hprog.2 (handler c state).1
      by_cases hc : fails c (handler c state).1
      · have hret := hnext.1 hc
        rw [eval_call, trace, hret]
        refine ⟨rfl, ?_⟩
        intro x hx
        obtain rfl := List.mem_singleton.mp hx
        exact hpure _ _ hc
      · obtain ⟨x, hx, hxfail⟩ := hfail
        rcases List.mem_cons.mp hx with rfl | hrest
        · exact absurd hxfail hc
        have hrun := ih _ hnext.2 ⟨x, hrest, hxfail⟩
        refine ⟨hrun.1, ?_⟩
        intro y hy
        rcases List.mem_cons.mp hy with rfl | hy
        · exact fun heffect =>
            (hprog.1 heffect _).trace handler _ hrest _ hxfail
        · exact hrun.2 y hy

end Heeds

/-- Run as long as the environment answers. -/
def advance (answer : (c : C) → S → Option (R c × S)) :
    Prog C R α → S → Prog C R α × S
  | ret value, state => (ret value, state)
  | call c next, state =>
      match answer c state with
      | none => (call c next, state)
      | some (r, after) => (next r).advance answer after

theorem reaches_advance {answer : (c : C) → S → Option (R c × S)}
    (hallowed : ∀ c state r after, answer c state = some (r, after) →
      sem c state r after)
    (prog : Prog C R α) (state : S) :
    Reaches sem (prog, state) (prog.advance answer state) := by
  induction prog generalizing state with
  | ret value => exact Relation.ReflTransGen.refl
  | call c next ih =>
      unfold advance
      cases hanswer : answer c state with
      | none => exact Relation.ReflTransGen.refl
      | some pair =>
          obtain ⟨r, after⟩ := pair
          exact Relation.ReflTransGen.head
            (Step.answer (hallowed c state r after hanswer)) (ih r after)

theorem advance_call {answer : (c : C) → S → Option (R c × S)} {c : C}
    {next : R c → Prog C R α} {state after : S} {r : R c}
    (hanswer : answer c state = some (r, after)) :
    (call c next).advance answer state = (next r).advance answer after := by
  rw [advance, hanswer]

/-- A run whose first part returns goes on with the second. -/
theorem advance_bind {answer : (c : C) → S → Option (R c × S)}
    {prog : Prog C R α} {f : α → Prog C R β} {state after : S} {value : α}
    (hprog : prog.advance answer state = (ret value, after)) :
    (prog >>= f).advance answer state = (f value).advance answer after := by
  induction prog generalizing state with
  | ret other =>
      cases hprog
      rfl
  | call c next ih =>
      cases hanswer : answer c state with
      | none =>
          rw [advance, hanswer] at hprog
          cases hprog
      | some pair =>
          rw [advance_call hanswer] at hprog
          rw [call_bind, advance_call hanswer]
          exact ih _ hprog

end Prog

end MetaOS
