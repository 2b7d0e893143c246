/-
hardware/ril/reference-ril/reference-ril.c: the calls of a reply to AT+CLCC.

The calls are filled in place, and the one that an invalid line began is
filled again from the next line.  All fields but the number and its type are
written before a line can be valid, so what matters is how far a line gets
with its number.
-/
import MetaOS.ReferenceRilAnswers

namespace MetaOS

namespace ReferenceRil

open CString AtTok callsFromLines

/-- The number of a call, if it is one that can be dialed. -/
def dialable (number : Bytes) : Option Bytes :=
  if number.headD 0 == 43 || AtChannel.isdigit (number.headD 0) then
    some number
  else none

/-- What stands behind the other fields of a line. -/
inductive Numbering where
  | omitted
  /-- A number without its type. -/
  | untyped (number : Option Bytes)
  | typed (number : Option Bytes) (toa : Int)

/-- The cursor behind the fields that stand before the number. -/
def behindFields (line : Bytes) : Option Cursor := do
  let cur ← atTokStart line
  let (_, cur) ← atTokNextint cur
  let (_, cur) ← atTokNextbool cur
  let (state, cur) ← atTokNextint cur
  let _ ← clccStateToRILState state
  let (_, cur) ← atTokNextint cur
  let (_, cur) ← atTokNextbool cur
  pure cur

def numberingAt : Cursor → Numbering
  | none | some [] => .omitted
  | some (c :: text) =>
      let (number, cur) := nextTok (c :: text)
      match atTokNextint cur with
      | none => .untyped (dialable number)
      | some (toa, _) => .typed (dialable number) toa

/-- A line has no numbering if a field before the number is missing. -/
def numbering (line : Bytes) : Option Numbering :=
  (behindFields line).map numberingAt

/-- The call that a line gives when it is read on its own. -/
def alone (line : Bytes) : Option RILCall :=
  match callFromCLCCLine line noCall with
  | (false, _) => none
  | (true, call) => some call

/-- The first line that gets to its number is a call that has none. -/
def Exposed (lines : List Bytes) : Prop :=
  ∃ between call after, lines = between ++ call :: after ∧
    (∀ line ∈ between, numbering line = none) ∧
    numbering call = some .omitted

/-- A number without its type stands before such lines. -/
def Leaks (lines : List Bytes) : Prop :=
  ∃ before untyped number after, lines = before ++ untyped :: after ∧
    numbering untyped = some (.untyped (some number)) ∧ Exposed after

section Fields

theorem getDM_throw_bind {α β : Type} {field : Option α} {left : RILCall}
    {next : α → Except RILCall β} :
    (field.getDM (throw left) >>= next) =
      match field with
      | none => .error left
      | some value => next value := by
  cases field with
  | none => rfl
  | some value => rfl

/-- A line has the fields before the number, and then they are all that it
writes, or it leaves the number and its type as they are. -/
theorem fieldsFromCLCCLine_cases (line : Bytes) :
    (behindFields line = none ∧ ∀ call, ∃ left,
      fieldsFromCLCCLine line call = .error left ∧
        left.number = call.number ∧ left.toa = call.toa) ∨
    ∃ cur state index isMpty isMT isVoice,
      behindFields line = some cur ∧ ∀ call : RILCall,
        fieldsFromCLCCLine line call = .ok (cur,
          ⟨state, index, call.toa, isMpty, isMT, isVoice, call.number⟩) := by
  simp only [behindFields, fieldsFromCLCCLine, getDM_throw_bind]
  cases atTokStart line with
  | none => simp
  | some cur =>
  cases hindex : atTokNextint cur with
  | none => simp [hindex]
  | some index =>
  cases hisMT : atTokNextbool index.2 with
  | none => simp [hindex, hisMT]
  | some isMT =>
  cases hnumber : atTokNextint isMT.2 with
  | none => simp [hindex, hisMT, hnumber]
  | some number =>
  cases hstate : clccStateToRILState number.1 with
  | none => simp [hindex, hisMT, hnumber, hstate]
  | some state =>
  cases hmode : atTokNextint number.2 with
  | none => simp [hindex, hisMT, hnumber, hstate, hmode]
  | some mode =>
  cases hisMpty : atTokNextbool mode.2 with
  | none => simp [hindex, hisMT, hnumber, hstate, hmode, hisMpty]
  | some isMpty =>
      right
      refine ⟨isMpty.2, state, index.1, isMpty.1, isMT.1, mode.1 = 0, ?_⟩
      simp [hindex, hisMT, hnumber, hstate, hmode, hisMpty, pure, Except.pure]

theorem numberFromCLCCLine_eq {cur : Cursor} {call : RILCall}
    (htoa : call.toa = 0) :
    numberFromCLCCLine cur call =
      match numberingAt cur with
      | .omitted => (true, call)
      | .untyped number => (false, { call with number := number })
      | .typed number toa =>
          (true, { call with number := number, toa := toa }) := by
  unfold numberFromCLCCLine numberingAt
  match cur with
  | none | some [] => rfl
  | some (c :: text) =>
      cases htype : atTokNextint (nextTok (c :: text)).2 with
      | none =>
        simp [atTokHasmore, atTokNextstr, htype, dialable, htoa]
      | some toa =>
        simp [atTokHasmore, atTokNextstr, htype, dialable]

/-- What a line makes of the call that is filled next. -/
theorem callFromCLCCLine_cases (line : Bytes) :
    (numbering line = none ∧ ∀ call, ∃ left,
      callFromCLCCLine line call = (false, left) ∧
        left.number = call.number ∧ left.toa = call.toa) ∨
    ∃ (found : Numbering) (filled : RILCall),
      numbering line = some found ∧ filled.toa = 0 ∧
      ∀ call : RILCall, call.toa = 0 → callFromCLCCLine line call =
        match found with
        | .omitted => (true, { filled with number := call.number })
        | .untyped number => (false, { filled with number := number })
        | .typed number toa =>
            (true, { filled with number := number, toa := toa }) := by
  rcases fieldsFromCLCCLine_cases line with ⟨hnone, hleft⟩ |
    ⟨cur, state, index, isMpty, isMT, isVoice, hcur, hfilled⟩
  · refine .inl ⟨by simp [numbering, hnone], fun call => ?_⟩
    obtain ⟨left, hfields, hsame⟩ := hleft call
    exact ⟨left, by rw [callFromCLCCLine, hfields], hsame⟩
  · refine .inr ⟨numberingAt cur,
      ⟨state, index, 0, isMpty, isMT, isVoice, none⟩,
      by simp [numbering, hcur], rfl, fun call htoa => ?_⟩
    simp only [callFromCLCCLine, hfilled, htoa]
    exact numberFromCLCCLine_eq rfl

end Fields

section Lines

theorem exposed_nil : ¬ Exposed [] := by
  rintro ⟨between, call, after, hlines, _⟩
  simp at hlines

theorem exposed_cons {line : Bytes} {lines : List Bytes} :
    Exposed (line :: lines) ↔ numbering line = some .omitted ∨
      numbering line = none ∧ Exposed lines := by
  constructor
  · rintro ⟨between, call, after, hlines, hbetween, hcall⟩
    cases between with
    | nil =>
        obtain ⟨rfl, rfl⟩ := List.cons.inj hlines
        exact .inl hcall
    | cons head between =>
        obtain ⟨rfl, rfl⟩ := List.cons.inj hlines
        rw [List.forall_mem_cons] at hbetween
        exact .inr ⟨hbetween.1, between, call, after, rfl, hbetween.2, hcall⟩
  · rintro (homitted | ⟨hnone, between, call, after, rfl, hbetween, hcall⟩)
    · exact ⟨[], line, lines, rfl, by simp, homitted⟩
    · exact ⟨line :: between, call, after, rfl,
        List.forall_mem_cons.mpr ⟨hnone, hbetween⟩, hcall⟩

theorem leaks_nil : ¬ Leaks [] := by
  rintro ⟨before, untyped, number, after, hlines, _⟩
  simp at hlines

theorem leaks_cons {line : Bytes} {lines : List Bytes} :
    Leaks (line :: lines) ↔
      (∃ number, numbering line = some (.untyped (some number))) ∧
        Exposed lines ∨ Leaks lines := by
  constructor
  · rintro ⟨before, untyped, number, after, hlines, huntyped, hexposed⟩
    cases before with
    | nil =>
        obtain ⟨rfl, rfl⟩ := List.cons.inj hlines
        exact .inl ⟨⟨number, huntyped⟩, hexposed⟩
    | cons head before =>
        obtain ⟨rfl, rfl⟩ := List.cons.inj hlines
        exact .inr ⟨before, untyped, number, after, rfl, huntyped, hexposed⟩
  · rintro (⟨⟨number, huntyped⟩, hexposed⟩ |
      ⟨before, untyped, number, after, rfl, huntyped, hexposed⟩)
    · exact ⟨[], line, number, lines, rfl, huntyped, hexposed⟩
    · exact ⟨line :: before, untyped, number, after, rfl, huntyped, hexposed⟩

/-- The line step: what becomes of a call that still has a number, or has
none. -/
theorem callsFromLines_eq_iff (lines : List Bytes) {call : RILCall}
    (htoa : call.toa = 0) :
    callsFromLines lines call = lines.filterMap alone ↔
      ¬ (call.number.isSome ∧ Exposed lines) ∧ ¬ Leaks lines := by
  induction lines generalizing call with
  | nil => simp [callsFromLines, exposed_nil, leaks_nil]
  | cons line lines ih =>
      rw [exposed_cons, leaks_cons]
      rcases callFromCLCCLine_cases line with ⟨hnone, hleft⟩ |
        ⟨found, filled, hfound, hfilled, hcall⟩
      · obtain ⟨left, hline, hnumber, hsame⟩ := hleft call
        obtain ⟨_, hline_alone, _⟩ := hleft noCall
        have halone : alone line = none := by rw [alone, hline_alone]
        rw [callsFromLines, hline, List.filterMap_cons_none halone]
        simp [ih (hsame.trans htoa), hnumber, hnone]
      · rw [callsFromLines, List.filterMap_cons, alone, hcall call htoa,
          hcall noCall rfl]
        have hfresh : callsFromLines lines noCall = lines.filterMap alone ↔
            ¬ Leaks lines :=
          (@ih noCall rfl).trans (by simp [noCall])
        cases found with
        | omitted =>
            -- the records of the line differ in what is left of a number
            have hnumber : call.number = noCall.number ↔
                ¬ call.number.isSome := by
              rw [Option.not_isSome_iff_eq_none]
              rfl
            simp [hfresh, hfound, hnumber]
        | untyped number =>
            have huntyped :=
              @ih { filled with number := number } hfilled
            simp [huntyped, hfound, Option.isSome_iff_exists]
        | typed number toa =>
            simp [hfresh, hfound]

theorem callsFromLines_alone_iff (lines : List Bytes) :
    callsFromLines lines noCall = lines.filterMap alone ↔ ¬ Leaks lines := by
  rw [@callsFromLines_eq_iff lines noCall rfl]
  simp [noCall]

end Lines

/-- The calls that are handed over in a run. -/
def reported {W α : Type} (handler : (c : Call) → W → c.Answer × W)
    (state : W) (body : Body α) : List (List RILCall) :=
  (body.trace handler state).filterMap fun x =>
    match x.1 with
    | .complete _ _ (.calls calls) => some calls
    | _ => none

section Request

variable {W : Type} (radio : Radio) (t : RILToken)
  (handler : (c : Call) → W → c.Answer × W) (state : W)

theorem reported_getCurrentCalls :
    reported handler state (requestGetCurrentCalls radio t) =
      ((successful (handler (.send .CLCC) state).1).map fun response =>
        callsFromLines response.pIntermediates noCall).toList := by
  simp only [requestGetCurrentCalls, atSendCommand, Prog.perform_bind,
    Prog.call_bind, reported, Prog.trace]
  generalize handler (.send .CLCC) state = answer
  obtain ⟨(reply : Reply), after⟩ := answer
  have hchecked : Command.CLCC.sending.checked reply = reply := rfl
  rw [hchecked, Prog.pure_eq_ret, Prog.ret_bind]
  cases hreply : successful reply with
  | none => rfl
  | some response =>
      dsimp only
      split
      · rfl
      · rfl

/-- The calls of a reply are the calls of its lines, each read on its own, if
and only if no line has a number without its type in front of a call that has
none. -/
theorem reports_alone_iff :
    reported handler state (requestGetCurrentCalls radio t) =
        ((successful (handler (.send .CLCC) state).1).map fun response =>
          response.pIntermediates.filterMap alone).toList ↔
      ∀ response, successful (handler (.send .CLCC) state).1 = some response →
        ¬ Leaks response.pIntermediates := by
  rw [reported_getCurrentCalls]
  cases successful (handler (.send .CLCC) state).1 with
  | none => simp
  | some response => simp [callsFromLines_alone_iff]

end Request

namespace ReferenceRilCallsWitness

open ReferenceRilAnswersWitness

/-- The first call has no type of its number, the second one no number. -/
def twoCalls : Reply := .ok ⟨true, .ofString "OK",
  [.ofString "+CLCC: 1,0,0,0,0,\"5551212\"", .ofString "+CLCC: 2,0,0,0,0"]⟩

/-- The number of the invalid line is handed over with the other call. -/
theorem number_carried : ¬ ∀ (radio : Radio) (t : RILToken)
    (handler : (c : Call) → Unit → c.Answer × Unit),
    reported handler () (requestGetCurrentCalls radio t) =
      ((successful (handler (.send .CLCC) ()).1).map fun response =>
        response.pIntermediates.filterMap alone).toList := by
  intro hreports
  have hcarried := hreports ready 7 (modem twoCalls)
  revert hcarried
  decide

end ReferenceRilCallsWitness

end ReferenceRil

end MetaOS
