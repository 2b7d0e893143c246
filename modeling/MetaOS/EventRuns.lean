/-
Systems that take one event after another.  A run is any sequence of enabled
events; a condition on the state and the event restricts it to the runs whose
steps all meet the condition.
-/
import Mathlib.Logic.Relation

namespace MetaOS

namespace EventRuns

variable {State Event : Type} {step : State → Event → Option State}
  {meets : State → Event → Prop}

/-- Runs whose steps all meet the condition. -/
def Reach (step : State → Event → Option State)
    (meets : State → Event → Prop) : State → State → Prop :=
  Relation.ReflTransGen fun s s' => ∃ event, meets s event ∧
    step s event = some s'

/-- Any run. -/
def Runs (step : State → Event → Option State) : State → State → Prop :=
  Reach step fun _ _ => True

/-- What every step that meets the condition keeps holds after every run. -/
theorem Reach.invariant (inv : State → Prop)
    (hkeeps : ∀ s event s', inv s → meets s event →
      step s event = some s' → inv s')
    {s s' : State} (hreach : Reach step meets s s') (hinv : inv s) :
    inv s' := by
  induction hreach with
  | refl => exact hinv
  | tail _ hstep ih =>
      obtain ⟨event, hmeets, hevent⟩ := hstep
      exact hkeeps _ event _ ih hmeets hevent

theorem Runs.invariant (inv : State → Prop)
    (hkeeps : ∀ s event s', inv s → step s event = some s' → inv s')
    {s s' : State} (hruns : Runs step s s') (hinv : inv s) : inv s' :=
  Reach.invariant inv (fun s event s' hs _ => hkeeps s event s' hs) hruns hinv

theorem Reach.refl {s : State} : Reach step meets s s :=
  Relation.ReflTransGen.refl

theorem Reach.tail {s middle s' : State} (hreach : Reach step meets s middle)
    (event : Event) (hmeets : meets middle event)
    (hstep : step middle event = some s') : Reach step meets s s' :=
  Relation.ReflTransGen.tail hreach ⟨event, hmeets, hstep⟩

theorem Reach.head {s middle s' : State} (event : Event)
    (hmeets : meets s event) (hstep : step s event = some middle)
    (hreach : Reach step meets middle s') : Reach step meets s s' :=
  Relation.ReflTransGen.head ⟨event, hmeets, hstep⟩ hreach

/-- The state after a list of events, if they are enabled one after the
other. -/
def follow (step : State → Event → Option State) :
    State → List Event → Option State
  | s, [] => some s
  | s, event :: events =>
      match step s event with
      | none => none
      | some s' => follow step s' events

theorem reach_of_follow (events : List Event) {first s s' : State}
    (hfirst : Reach step meets first s)
    (hmeets : ∀ event ∈ events, ∀ s, meets s event)
    (hfollow : follow step s events = some s') : Reach step meets first s' := by
  induction events generalizing s with
  | nil =>
      rw [← Option.some_inj.mp hfollow]
      exact hfirst
  | cons event events ih =>
      rw [follow] at hfollow
      cases hstep : step s event with
      | none => simp [hstep] at hfollow
      | some next =>
          rw [hstep] at hfollow
          exact ih
            (hfirst.tail event (hmeets event List.mem_cons_self s) hstep)
            (fun event hmem => hmeets event (List.mem_cons_of_mem _ hmem))
            hfollow

theorem runs_of_follow (events : List Event) {first s s' : State}
    (hfirst : Runs step first s) (hfollow : follow step s events = some s') :
    Runs step first s' :=
  reach_of_follow events hfirst (fun _ _ _ => trivial) hfollow

/-- Where a step leads to a good state exactly if it meets the condition, a run
passes through good states only, exactly if all its steps meet it. -/
theorem follow_good_iff (good inv : State → Prop)
    (hinv : ∀ s event s', inv s → step s event = some s' → inv s')
    (hgood : ∀ s event s', inv s → good s → step s event = some s' →
      (good s' ↔ meets s event))
    (events : List Event) {first last : State} (hfirst : inv first)
    (hstart : good first) (hfollow : follow step first events = some last) :
    (∀ before after s, events = before ++ after →
        follow step first before = some s → good s) ↔
      ∀ before event after s, events = before ++ event :: after →
        follow step first before = some s → meets s event := by
  induction events generalizing first with
  | nil =>
      constructor
      · intro _ before event after s heq _
        simp at heq
      · intro _ before after s heq hs
        obtain ⟨rfl, rfl⟩ := List.append_eq_nil_iff.mp heq.symm
        rwa [← Option.some_inj.mp hs]
  | cons head events ih =>
      rw [follow] at hfollow
      cases hnext : step first head with
      | none => simp [hnext] at hfollow
      | some next =>
          rw [hnext] at hfollow
          have hhead := hgood first head next hfirst hstart hnext
          have htail := ih (hinv first head next hfirst hnext)
          constructor
          · intro hall before event after s heq hs
            have hgoodNext : good next :=
              hall [head] events next rfl (by simp [follow, hnext])
            cases before with
            | nil =>
                obtain ⟨rfl, rfl⟩ := List.cons.inj heq
                rw [← Option.some_inj.mp hs]
                exact hhead.mp hgoodNext
            | cons _ before =>
                obtain ⟨rfl, hevents⟩ := List.cons.inj heq
                refine (htail hgoodNext hfollow).mp ?_ before event after s
                  hevents (by simpa [follow, hnext] using hs)
                intro before after s heq hs
                exact hall (head :: before) after s (by rw [heq]; rfl)
                  (by simpa [follow, hnext] using hs)
          · intro hall before after s heq hs
            have hgoodNext : good next :=
              hhead.mpr (hall [] head events first rfl rfl)
            cases before with
            | nil =>
                rwa [← Option.some_inj.mp hs]
            | cons _ before =>
                obtain ⟨rfl, hevents⟩ := List.cons.inj heq
                refine (htail hgoodNext hfollow).mpr ?_ before after s
                  hevents (by simpa [follow, hnext] using hs)
                intro before event after s heq hs
                exact hall (head :: before) event after s (by rw [heq]; rfl)
                  (by simpa [follow, hnext] using hs)

end EventRuns

end MetaOS
