/-
What it takes to erase the user data from the menu.

A log holds every call with its answer.  Keys may come in any order, the text
may be shown or hidden between any two of them, and the screen may have room
for any number of items.
-/
import MetaOS.RecoveryMain

namespace MetaOS

namespace RecoveryMain

namespace Menu

open Prog

/-- A call and its answer. -/
abbrev Event := (c : Call) × c.Answer

/-- `ui_menu_select` in ui.c, where `menuItems` items are shown. -/
def uiMenuSelect (showMenu : Bool) (menuItems : Nat) (sel : Int) : Int :=
  if showMenu then
    let menuSel := if sel < 0 then 0 else sel
    if (menuItems : Int) ≤ menuSel then (menuItems : Int) - 1 else menuSel
  else sel

def sem : Semantics Call Call.Answer (List Event)
  | .uiMenuSelect sel, log, r, log' =>
      (∃ showMenu menuItems, r = uiMenuSelect showMenu menuItems sel) ∧
        log' = log ++ [⟨.uiMenuSelect sel, r⟩]
  | c, log, r, log' => log' = log ++ [⟨c, r⟩]

/-- What happens while a menu is shown, and what the keys stand for. -/
inductive Keys : List Event → List Int → Prop
  | none : Keys [] []
  | key {log : List Event} {actions : List Int} (hlog : Keys log actions)
      (key : Int) (visible : Bool) :
      Keys (log ++ [⟨.uiWaitKey, key⟩, ⟨.uiTextVisible, visible⟩])
        (actions ++ [deviceHandleKey key visible])
  | move {log : List Event} {actions : List Int} (hlog : Keys log actions)
      (sel moved : Int) : Keys (log ++ [⟨.uiMenuSelect sel, moved⟩]) actions

/-- A menu is shown with no keys left from before, and left through the key
that selects, behind `count` keys or more that go down. -/
def Selects (items : List Bytes) (count : Nat) (log : List Event) : Prop :=
  ∃ keys actions, log = [⟨.uiClearKeyQueue, ()⟩, ⟨.uiStartMenu items, ()⟩] ++
      keys ++ [⟨.uiEndMenu, ()⟩] ∧
    Keys keys (actions ++ [SELECT_ITEM]) ∧ count ≤ actions.count HIGHLIGHT_DOWN

/-- The item has been selected, and then, unless the text was hidden, it has
been confirmed. -/
def Confirmed (log : List Event) : Prop :=
  ∃ earlier selects, Selects MENU_ITEMS 2 selects ∧
    (log = earlier ++ selects ++ [⟨.uiTextVisible, false⟩] ∨
      ∃ confirms, Selects wipeItems 7 confirms ∧
        log = earlier ++ selects ++ [⟨.uiTextVisible, true⟩] ++ confirms)

/-- The calls between the decision and the first erased block. -/
def announcement : List Event :=
  [⟨.uiPrint (.ofString "\n-- Wiping data...\n"), ()⟩,
    ⟨.uiSetBackground .installing, ()⟩, ⟨.uiShowIndeterminateProgress, ()⟩,
    ⟨.uiPrint (.ofString "Formatting " ++ DATA ++ .ofString "...\n"), ()⟩]

def startsWipe : Event := ⟨.start (.formatRoot DATA), ()⟩

/-- Nothing is erased unless it has been confirmed. -/
def Deliberate (log : List Event) : Prop :=
  ∀ before after, log = before ++ startsWipe :: after →
    ∃ decision, Confirmed decision ∧ before = decision ++ announcement

section Logs

variable {log : List Event}

theorem Deliberate.snoc {e : Event} (hlog : Deliberate log)
    (he : e = startsWipe → ∃ decision, Confirmed decision ∧
      log = decision ++ announcement) : Deliberate (log ++ [e]) := by
  intro before after heq
  rcases List.eq_nil_or_concat' after with rfl | ⟨after, last, rfl⟩
  · obtain ⟨rfl, hlast⟩ := List.append_inj' heq rfl
    exact he (List.singleton_inj.mp hlast)
  · have hsplit : log ++ [e] =
        (before ++ startsWipe :: after) ++ [last] := by
      rw [heq, List.append_assoc, List.cons_append]
    exact hlog before after (List.append_inj' hsplit rfl).1

end Logs

section Run

variable {log : List Event}

theorem sem_log {c : Call} {r : c.Answer} {log' : List Event}
    (hsem : sem c log r log') : log' = log ++ [⟨c, r⟩] := by
  cases c with
  | uiMenuSelect sel => exact hsem.2
  | _ => exact hsem

/-- Calls that erase no user data. -/
def Harmless (c : Call) : Prop := c ≠ .start (.formatRoot DATA)

/-- The work that a call begins. -/
def started : Call → Option Work
  | .start work => some work
  | _ => none

theorem harmless {c : Call} (hc : started c = none) : Harmless c := by
  rintro rfl
  cases hc

theorem harmless_safe {α : Type} {prog : Program α}
    (hprog : prog.Issues Harmless) (hlog : Deliberate log) :
    Safe sem Deliberate (fun _ _ => True) prog log := by
  refine Safe.of_issues (fun hc hlog hsem => ?_) hprog hlog
  rw [sem_log hsem]
  exact hlog.snoc fun he => absurd (congrArg Sigma.fst he) hc

theorem ask_safe {c : Call} (hc : Harmless c) (hlog : Deliberate log) :
    Safe sem Deliberate (fun r log' => log' = log ++ [⟨c, r⟩]) (ask c)
      log := by
  refine ⟨hlog, fun r log' hsem => ?_⟩
  rw [sem_log hsem]
  exact ⟨hlog.snoc fun he => absurd (congrArg Sigma.fst he) hc, rfl⟩

theorem uiMenuSelect_le (showMenu : Bool) (menuItems : Nat) (sel : Int) :
    uiMenuSelect showMenu menuItems sel ≤ max sel 0 := by
  unfold uiMenuSelect
  dsimp only
  split
  · split
    · split
      · omega
      · omega
    · split
      · omega
      · omega
  · omega

theorem deviceHandleKey_neg (key : Int) (visible : Bool) :
    deviceHandleKey key visible < 0 := by
  unfold deviceHandleKey
  repeat' split
  all_goals decide

/-- The item that is selected, and the keys for it. -/
def Chosen (start : List Event) (chosen : Int) (log : List Event) : Prop :=
  0 ≤ chosen ∧ ∃ keys acts, log = start ++ keys ∧
    Keys keys (acts ++ [SELECT_ITEM]) ∧ chosen ≤ acts.count HIGHLIGHT_DOWN

/-- The item that is selected is not beyond what the keys that go down can
reach. -/
theorem selectItem_safe (menuOnly : Bool) (fuel : Nat)
    (start : List Event) {keys : List Event} {acts : List Int} {selected : Int}
    (hlog : Deliberate (start ++ keys)) (hkeys : Keys keys acts)
    (hselected : selected ≤ acts.count HIGHLIGHT_DOWN) :
    Safe sem Deliberate
      (fun r log => ∀ chosen, r = some chosen → Chosen start chosen log)
      (selectItem menuOnly fuel selected) (start ++ keys) := by
  induction fuel generalizing keys acts selected with
  | zero => exact ⟨hlog, fun _ h => nomatch h⟩
  | succ fuel ih =>
      unfold selectItem
      refine (ask_safe (c := .uiWaitKey) (harmless rfl) hlog).bind
        fun (key : Int) _ hlog' hwait => ?_
      subst hwait
      refine (ask_safe (c := .uiTextVisible) (harmless rfl) hlog').bind
        fun (visible : Bool) _ hlog'' hvisible => ?_
      subst hvisible
      have hkeys' := hkeys.key key visible
      rw [List.append_assoc, List.append_assoc] at hlog'' ⊢
      change Deliberate (start ++ (keys ++
        [⟨.uiWaitKey, key⟩, ⟨.uiTextVisible, visible⟩])) at hlog''
      change Safe sem Deliberate _ _ (start ++ (keys ++
        [⟨.uiWaitKey, key⟩, ⟨.uiTextVisible, visible⟩]))
      generalize keys ++ [⟨.uiWaitKey, key⟩, ⟨.uiTextVisible, visible⟩] =
        keys' at hkeys' hlog'' ⊢
      -- the highlight moves, and stays where the keys can have taken it
      have hmove : ∀ {action sel : Int}, Keys keys' (acts ++ [action]) →
          sel ≤ (acts ++ [action]).count HIGHLIGHT_DOWN →
          Safe sem Deliberate
            (fun r log => ∀ chosen, r = some chosen → Chosen start chosen log)
            (ask (.uiMenuSelect sel) >>= fun (selected : Int) =>
              selectItem menuOnly fuel selected) (start ++ keys') := by
        intro action sel hacts hsel
        refine ⟨hlog'', fun moved _ hsem => ?_⟩
        obtain ⟨⟨showMenu, menuItems, rfl⟩, rfl⟩ := hsem
        have hle := uiMenuSelect_le showMenu menuItems sel
        rw [List.append_assoc]
        refine ih ?_ (hacts.move sel _) (by omega)
        rw [← List.append_assoc]
        exact hlog''.snoc fun he => nomatch congrArg Sigma.fst he
      have hstay : ∀ {action : Int}, Keys keys' (acts ++ [action]) →
          Safe sem Deliberate
            (fun r log => ∀ chosen, r = some chosen → Chosen start chosen log)
            (selectItem menuOnly fuel selected) (start ++ keys') := by
        intro action hacts
        refine ih hlog'' hacts ?_
        rw [List.count_append]
        omega
      have hneg := deviceHandleKey_neg key visible
      dsimp only
      generalize deviceHandleKey key visible = action at hkeys' hneg ⊢
      rw [if_pos hneg]
      split
      · rename_i hup
        refine hmove hkeys' ?_
        rw [List.count_append]
        omega
      · split
        · rename_i hdown
          refine hmove hkeys' ?_
          rw [List.count_append, hdown, List.count_singleton_self]
          omega
        · split
          · rename_i hselect
            obtain ⟨rfl, hpos⟩ := hselect
            refine ⟨hlog'', fun chosen heq => ?_⟩
            obtain rfl := Option.some.inj heq
            exact ⟨hpos, keys', acts, rfl, hkeys', hselected⟩
          · exact hstay hkeys'

theorem getMenuSelection_safe (fuel : Nat) (items : List Bytes)
    (menuOnly : Bool) (hlog : Deliberate log) :
    Safe sem Deliberate
      (fun r log' => ∀ chosen, r = some chosen → 0 ≤ chosen ∧
        ∃ selects, Selects items chosen.toNat selects ∧ log' = log ++ selects)
      (getMenuSelection fuel items menuOnly) log := by
  unfold getMenuSelection
  refine (ask_safe (c := .uiClearKeyQueue) (harmless rfl) hlog).bind
    fun _ _ hlog' hclear => ?_
  subst hclear
  refine (ask_safe (c := .uiStartMenu items) (harmless rfl) hlog').bind
    fun _ _ hlog'' hstart => ?_
  subst hstart
  have hselect := selectItem_safe menuOnly fuel
    (log ++ [⟨.uiClearKeyQueue, ()⟩] ++ [⟨.uiStartMenu items, ()⟩])
    (by rwa [List.append_nil]) .none (Int.natCast_nonneg _)
  rw [List.append_nil] at hselect
  refine hselect.bind fun chosen _ hlog₃ hchosen => ?_
  cases chosen with
  | none => exact ⟨hlog₃, fun _ h => nomatch h⟩
  | some chosen =>
      obtain ⟨hpos, keys, acts, rfl, hkeys, hcount⟩ := hchosen chosen rfl
      refine (ask_safe (c := .uiEndMenu) (harmless rfl) hlog₃).bind
        fun _ _ hlog₄ hend => ?_
      subst hend
      refine ⟨hlog₄, fun _ heq => ?_⟩
      obtain rfl := Option.some.inj heq
      refine ⟨hpos, _, ⟨keys, acts, rfl, hkeys, by omega⟩, ?_⟩
      simp only [List.append_assoc, List.cons_append, List.nil_append]

/-- Going on with a value if there is one. -/
theorem andThen_safe {α β : Type} {first : Program (Option α)}
    {next : α → Program (Option β)} (post : α → List Event → Prop)
    (hfirst : Safe sem Deliberate
      (fun r log => ∀ value, r = some value → post value log) first log)
    (hnext : ∀ value log, Deliberate log → post value log →
      Safe sem Deliberate (fun _ _ => True) (next value) log) :
    Safe sem Deliberate (fun _ _ => True) (first.andThen next) log := by
  refine Safe.bind hfirst fun r log hlog hr => ?_
  cases r with
  | none => exact ⟨hlog, trivial⟩
  | some value => exact hnext value log hlog (hr value rfl)

theorem eraseRoot_harmless {root : Bytes} (hroot : root ≠ DATA) :
    (eraseRoot root).Issues Harmless := by
  refine ⟨harmless rfl, fun _ => ⟨harmless rfl, fun _ =>
    ⟨harmless rfl, fun _ => ⟨fun heq => ?_, fun _ =>
      ⟨harmless rfl, fun _ => trivial⟩⟩⟩⟩⟩
  injection heq with hwork
  injection hwork with hsame
  exact hroot hsame

theorem installPackage_harmless (rootPath : Bytes) :
    (installPackage rootPath).Issues Harmless := by
  refine ⟨fun heq => ?_, fun _ => ⟨harmless rfl, fun _ => trivial⟩⟩
  injection heq with hwork
  cases hwork

theorem finishRecovery_harmless (sendIntent : Option Bytes) :
    (finishRecovery sendIntent).Issues Harmless := by
  cases sendIntent with
  | none =>
      exact ⟨harmless rfl, fun _ => ⟨harmless rfl, fun _ =>
        ⟨harmless rfl, fun _ => ⟨harmless rfl, fun _ => trivial⟩⟩⟩⟩
  | some sendIntent =>
      exact ⟨harmless rfl, fun _ => ⟨harmless rfl, fun _ =>
        ⟨harmless rfl, fun _ => ⟨harmless rfl, fun _ =>
          ⟨harmless rfl, fun _ => trivial⟩⟩⟩⟩⟩

/-- The user data is erased behind a decision. -/
theorem wipe_safe (hlog : Deliberate log) (hconfirmed : Confirmed log) :
    Safe sem Deliberate (fun _ _ => True) wipe log := by
  unfold wipe eraseRoot RecoveryMain.uiPrint perform
  simp only [bind_assoc]
  refine (ask_safe (c := .uiPrint _) (harmless rfl) hlog).bind
    fun _ _ hlog₁ h₁ => ?_
  subst h₁
  refine (ask_safe (c := .uiSetBackground _) (harmless rfl) hlog₁).bind
    fun _ _ hlog₂ h₂ => ?_
  subst h₂
  refine (ask_safe (harmless rfl) hlog₂).bind fun _ _ hlog₃ h₃ => ?_
  subst h₃
  refine (ask_safe (c := .uiPrint _) (harmless rfl) hlog₃).bind
    fun _ _ hlog₄ h₄ => ?_
  subst h₄
  refine ⟨hlog₄, fun _ _ hsem => ?_⟩
  rw [sem_log hsem]
  have hwiped := hlog₄.snoc fun _ : startsWipe = startsWipe =>
    ⟨log, hconfirmed, by simp [announcement]⟩
  refine harmless_safe ?_ hwiped
  exact ⟨harmless rfl, fun _ => (eraseRoot_harmless (by decide)).bind fun _ =>
    ⟨harmless rfl, fun _ => trivial⟩⟩

theorem connect_harmless (fuel : Nat) : (connect fuel).Issues Harmless := by
  induction fuel with
  | zero => trivial
  | succ fuel ih =>
      refine ⟨harmless rfl, fun _ => ⟨harmless rfl, fun retry => ?_⟩⟩
      exact Issues.ite ih trivial

theorem enterRemoteUpdate_safe (fuel : Nat) (hlog : Deliberate log) :
    Safe sem Deliberate (fun _ _ => True) (enterRemoteUpdate fuel) log := by
  refine andThen_safe _ (getMenuSelection_safe fuel _ false hlog)
    fun chosenItem log hlog _ => harmless_safe ?_ hlog
  refine Issues.ite ⟨harmless rfl, fun _ => trivial⟩ (Issues.ite ?_ trivial)
  exact ⟨harmless rfl, fun _ => trivial⟩

/-- Of all items only one leads to the erasure of the user data. -/
theorem performItem_harmless {chosenItem : Int} (fuel : Nat)
    (hitem : chosenItem ≠ ITEM_WIPE_DATA) (hlog : Deliberate log) :
    Safe sem Deliberate (fun _ _ => True) (performItem fuel chosenItem)
      log := by
  unfold performItem
  split
  · exact ⟨hlog, trivial⟩
  split
  · refine harmless_safe ⟨harmless rfl, fun _ => ?_⟩ hlog
    exact (eraseRoot_harmless (by decide)).bind fun _ =>
      ⟨harmless rfl, fun _ => ⟨harmless rfl, fun _ => trivial⟩⟩
  split
  · refine harmless_safe ⟨harmless rfl, fun _ => ⟨harmless rfl, fun _ => ?_⟩⟩
      hlog
    refine (installPackage_harmless _).bind fun status => ?_
    refine Issues.ite ⟨harmless rfl, fun _ => ⟨harmless rfl, fun _ => trivial⟩⟩
      ⟨harmless rfl, fun visible => ?_⟩
    exact Issues.ite ⟨harmless rfl, fun _ => trivial⟩ trivial
  split
  · refine Safe.bind (harmless_safe (issues_perform (harmless rfl)) hlog)
      fun _ log hlog _ => ?_
    refine Safe.bind (harmless_safe ⟨harmless rfl, fun _ => trivial⟩ hlog)
      fun (connected : Bool) log hlog _ => ?_
    refine andThen_safe (fun _ _ => True) ?_
      fun _ log hlog _ => andThen_safe (fun _ _ => True) ?_
        fun _ log hlog _ => ⟨hlog, trivial⟩
    · have hissues : Issues Harmless
          (if connected then pure (some ()) else connect fuel) :=
        Issues.ite trivial (connect_harmless fuel)
      exact (harmless_safe hissues hlog).mono (fun _ h => h)
        fun _ _ _ _ _ _ => trivial
    · exact (enterRemoteUpdate_safe fuel hlog).mono (fun _ h => h)
        fun _ _ _ _ _ _ => trivial
  · exact ⟨hlog, trivial⟩

theorem performItem_safe {chosenItem : Int} (fuel : Nat) {earlier : List Event}
    {selects : List Event} (hlog : Deliberate (earlier ++ selects))
    (hselects : Selects MENU_ITEMS chosenItem.toNat selects) :
    Safe sem Deliberate (fun _ _ => True) (performItem fuel chosenItem)
      (earlier ++ selects) := by
  by_cases hitem : chosenItem = ITEM_WIPE_DATA
  · subst hitem
    unfold performItem
    rw [if_neg (by decide), if_pos rfl]
    refine (ask_safe (c := .uiTextVisible) (harmless rfl) hlog).bind
      fun (confirm : Bool) _ hlog' hvisible => ?_
    subst hvisible
    have hend : ∀ log, Deliberate log → Safe sem Deliberate (fun _ _ => True)
        (ask .uiTextVisible >>= fun (visible : Bool) =>
          pure (some !visible) : Program (Option Bool)) log :=
      fun log hlog => harmless_safe ⟨harmless rfl, fun _ => trivial⟩ hlog
    refine andThen_safe (fun _ _ => True) ?_
      fun _ log hlog _ => hend log hlog
    have hwipe : ∀ {log : List Event}, Deliberate log → Confirmed log →
        Safe sem Deliberate (fun r _ => ∀ value, r = some value → True) wipe
          log :=
      fun hlog hconfirmed => (wipe_safe hlog hconfirmed).mono (fun _ h => h)
        fun _ _ _ _ _ _ => trivial
    unfold wipeData
    cases confirm with
    | false => exact hwipe hlog' ⟨earlier, selects, hselects, .inl rfl⟩
    | true =>
        refine (andThen_safe _ (getMenuSelection_safe fuel wipeItems true hlog')
          fun chosen log hlog hchosen => ?_).mono (fun _ h => h)
            fun _ _ _ _ _ _ => trivial
        obtain ⟨-, confirms, hconfirms, rfl⟩ := hchosen
        split
        · exact ⟨hlog, trivial⟩
        · rename_i hseven
          rw [not_not] at hseven
          subst hseven
          exact wipe_safe hlog
            ⟨earlier, selects, hselects, .inr ⟨confirms, hconfirms, rfl⟩⟩
  · exact performItem_harmless fuel hitem hlog

theorem promptAndWait_safe (fuel : Nat) (hlog : Deliberate log) :
    Safe sem Deliberate (fun _ _ => True) (promptAndWait fuel) log := by
  induction fuel generalizing log with
  | zero => exact ⟨hlog, trivial⟩
  | succ fuel ih =>
      unfold promptAndWait
      refine Safe.bind (harmless_safe (finishRecovery_harmless none) hlog)
        fun _ log hlog _ => ?_
      refine Safe.bind (harmless_safe (issues_perform (harmless rfl)) hlog)
        fun _ log hlog _ => ?_
      refine andThen_safe _ (getMenuSelection_safe fuel MENU_ITEMS false hlog)
        fun chosenItem log hlog hchosen => ?_
      obtain ⟨-, selects, hselects, rfl⟩ := hchosen
      refine andThen_safe (fun _ _ => True) ?_
        fun leave log hlog _ => ?_
      · exact (performItem_safe fuel hlog hselects).mono (fun _ h => h)
          fun _ _ _ _ _ _ => trivial
      · cases leave with
        | true => exact ⟨hlog, trivial⟩
        | false => exact ih hlog

end Run

theorem deliberate_nil : Deliberate [] := by
  intro before after heq
  cases before with
  | nil => cases heq
  | cons e before => cases heq

/-- Whatever keys are pressed and however the text is shown and hidden between
them, the menu erases the user data only for a user who has gone down to the
item and selected it, and, unless the text was hidden by then, has gone down at
least seven times and selected in the menu that asks again. -/
theorem wipe_is_deliberate (fuel : Nat) {rest : Program (Option Unit)}
    {log : List Event}
    (hreach : Reaches sem (promptAndWait fuel, []) (rest, log)) :
    Deliberate log :=
  (promptAndWait_safe fuel deliberate_nil).inv_of_reaches hreach

namespace RecoveryMenuWitness

/-- To the item and in, down to the last but three items and in, and out. -/
def pressed : List Int :=
  [KEY_DOWN, KEY_DOWN, KEY_ENTER] ++ List.replicate 7 KEY_DOWN ++ [KEY_ENTER]

def isWaitKey (e : Event) : Bool :=
  match e.1 with
  | .uiWaitKey => true
  | _ => false

/-- Nothing fails, and the text is shown. -/
def answer : (c : Call) → List Event → c.Answer
  | .uiWaitKey, log => pressed.getD (log.countP isWaitKey) KEY_ENTER
  | .uiMenuSelect sel, _ => uiMenuSelect true 11 sel
  | .uiTextVisible, _ => true
  | .getBootloaderMessage, _ => none
  | .readCommandFile, _ => none
  | .finish _, _ | .initServer, _ => (0 : Int)
  | .propertyGet _ default, _ => default
  | .setBootloaderMessage _, _ | .writeIntentFile _, _ | .copyLog, _
  | .unlinkCommandFile, _ | .sync, _ | .reboot, _ | .start _, _
  | .runScript _, _ | .uiPrint _, _ | .uiSetBackground _, _
  | .uiShowProgress _, _ | .uiShowIndeterminateProgress, _
  | .uiResetProgress, _ | .uiClearKeyQueue, _ | .uiStartMenu _, _
  | .uiEndMenu, _ => ()

def handler (c : Call) (log : List Event) : c.Answer × List Event :=
  (answer c log, log ++ [⟨c, answer c log⟩])

theorem handler_sem (c : Call) (log : List Event) :
    sem c log (handler c log).1 (handler c log).2 := by
  cases c with
  | uiMenuSelect sel => exact ⟨⟨true, 11, rfl⟩, rfl⟩
  | _ => rfl

def session : List Event := ((promptAndWait 9).eval handler []).2

def isWipe (e : Event) : Bool :=
  match e.1 with
  | .start (.formatRoot root) => root == DATA
  | _ => false

theorem wiped_deliberately :
    session.any isWipe = true ∧ Deliberate session :=
  ⟨by decide +kernel,
    wipe_is_deliberate 9 (reaches_eval handler handler_sem _ [])⟩

end RecoveryMenuWitness

end Menu

end RecoveryMain

end MetaOS
