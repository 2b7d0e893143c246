/-
hardware/ril/reference-ril/atchannel.c: the lines that are processed while a
command waits, up to its final response, and what its issuer is given.
-/
import MetaOS.AtAttribution

namespace MetaOS

namespace AtChannel

/-- The lines with what becomes of each, and the channel behind the last. -/
def processLines : Channel → List Bytes →
    Option (List (Bytes × Treatment) × Channel)
  | c, [] => some ([], c)
  | c, line :: lines => do
      let (treatment, c) ← processLine c line
      let (marks, c) ← processLines c lines
      pure ((line, treatment) :: marks, c)

/-- `> ` -/
def promptLine : Bytes := .ofString "> "

/-- A line that a command of this type takes as an answer. -/
def accepts (type : ATCommandType) (start : Option Bytes) (line : Bytes) :
    Bool :=
  match type with
  | .NO_RESULT => false
  | .NUMERIC => isdigit (line.headD 0)
  | .SINGLELINE => strStartsWith line start = some true
  | .MULTILINE => strStartsWith line start = some true

/-- Only one type takes more than one line. -/
def firstOnly (type : ATCommandType) (had : Nat) (lines : List Bytes) :
    List Bytes :=
  match type with
  | .MULTILINE => lines
  | _ => lines.take (1 - had)

/-- The first prompt is not an answer while there is a text to send. -/
def unprompted (pdu : Option Bytes) (lines : List Bytes) : List Bytes :=
  match pdu with
  | some _ => lines.erase promptLine
  | none => lines

/-- The answers among the lines, for a command that already `had` some. -/
def collect (type : ATCommandType) (start pdu : Option Bytes) (had : Nat)
    (lines : List Bytes) : List Bytes :=
  firstOnly type had ((unprompted pdu lines).filter (accepts type start))

def Command.collected (command : Command) (lines : List Bytes) : List Bytes :=
  collect command.type command.responsePrefix command.smspdu 0 lines

def Treatment.pdu : Treatment → Option Bytes
  | .prompt pdu => some pdu
  | _ => none

/-- The lines that were treated so. -/
def treated (treatment : Treatment) (marks : List (Bytes × Treatment)) :
    List Bytes :=
  (marks.filter fun mark => mark.2 = treatment).map Prod.fst

/-- What becomes of the lines before the final response: each has one mark,
the text is sent at the prompt, if at all, and the intermediate lines are the
answers; every other line is reported as unsolicited. -/
structure Classified (type : ATCommandType) (start pdu : Option Bytes)
    (had : Nat) (lines : List Bytes) (marks : List (Bytes × Treatment)) :
    Prop where
  each : marks.map Prod.fst = lines
  sent : marks.filterMap (·.2.pdu) =
    if promptLine ∈ lines then pdu.toList else []
  prompt (mark : Bytes × Treatment) (hmem : mark ∈ marks) (text : Bytes)
    (htext : mark.2 = .prompt text) : mark.1 = promptLine
  intermediates :
    treated .intermediate marks = collect type start pdu had lines
  unfinished (mark : Bytes × Treatment) (hmem : mark ∈ marks) :
    mark.2 ≠ .finalResponse

section Lines

variable {type : ATCommandType} {start pdu : Option Bytes} {had : Nat}
  {line : Bytes} {lines : List Bytes} {marks : List (Bytes × Treatment)}

/-- A line is taken if it is an answer and there is room for one. -/
def takes (type : ATCommandType) (start : Option Bytes) (had : Nat)
    (line : Bytes) : Prop :=
  accepts type start line = true ∧ (type = .MULTILINE ∨ had = 0)

theorem firstOnly_of_ne (htype : type ≠ .MULTILINE) :
    firstOnly type had lines = lines.take (1 - had) := by
  cases type with
  | MULTILINE => exact absurd rfl htype
  | NO_RESULT => rfl
  | NUMERIC => rfl
  | SINGLELINE => rfl

theorem firstOnly_cons_of_room (hroom : type = .MULTILINE ∨ had = 0) :
    firstOnly type had (line :: lines) =
      line :: firstOnly type (had + 1) lines := by
  by_cases htype : type = .MULTILINE
  · rw [htype]
    rfl
  · obtain rfl := hroom.resolve_left htype
    rw [firstOnly_of_ne htype, firstOnly_of_ne htype]
    rfl

theorem firstOnly_of_full (hfull : ¬ (type = .MULTILINE ∨ had = 0)) :
    firstOnly type had lines = [] := by
  rw [not_or] at hfull
  have hnone : 1 - had = 0 := by omega
  rw [firstOnly_of_ne hfull.1, hnone, List.take_zero]

/-- The line is not taken for the prompt. -/
def Plain (pdu : Option Bytes) (line : Bytes) : Prop :=
  pdu = none ∨ line ≠ promptLine

theorem Plain.unprompted_cons (hplain : Plain pdu line) :
    unprompted pdu (line :: lines) = line :: unprompted pdu lines := by
  cases pdu with
  | none => rfl
  | some pdu =>
      have hne := hplain.resolve_left (Option.some_ne_none pdu)
      exact List.erase_cons_tail (by simpa using hne)

theorem Plain.collect_cons_of_takes (hplain : Plain pdu line)
    (htakes : takes type start had line) :
    collect type start pdu had (line :: lines) =
      line :: collect type start pdu (had + 1) lines := by
  rw [collect, hplain.unprompted_cons, List.filter_cons_of_pos htakes.1,
    firstOnly_cons_of_room htakes.2, collect]

theorem Plain.collect_cons_of_not_takes (hplain : Plain pdu line)
    (htakes : ¬ takes type start had line) :
    collect type start pdu had (line :: lines) =
      collect type start pdu had lines := by
  rw [collect, hplain.unprompted_cons, collect]
  by_cases haccepts : accepts type start line = true
  · have hfull : ¬ (type = .MULTILINE ∨ had = 0) :=
      fun hroom => htakes ⟨haccepts, hroom⟩
    rw [firstOnly_of_full hfull, firstOnly_of_full hfull]
  · rw [List.filter_cons_of_neg haccepts]

theorem Plain.sent_cons (hplain : Plain pdu line) :
    (if promptLine ∈ line :: lines then pdu.toList else []) =
      if promptLine ∈ lines then pdu.toList else [] := by
  rcases hplain with rfl | hne
  · simp
  · simp [hne.symm]

theorem Classified.nil : Classified type start pdu had [] [] where
  each := rfl
  sent := rfl
  prompt mark hmem := absurd hmem List.not_mem_nil
  intermediates := by
    rw [collect]
    cases pdu <;> cases type <;> simp [unprompted, firstOnly, treated]
  unfinished mark hmem := absurd hmem List.not_mem_nil

theorem Classified.prompted (pdu : Bytes)
    (hrest : Classified type start none had lines marks) :
    Classified type start (some pdu) had (promptLine :: lines)
      ((promptLine, .prompt pdu) :: marks) where
  each := congrArg _ hrest.each
  sent := by
    rw [if_pos List.mem_cons_self]
    have hnone : marks.filterMap (·.2.pdu) = [] := by simpa using hrest.sent
    have hcons : ((promptLine, Treatment.prompt pdu) :: marks).filterMap
        (·.2.pdu) = pdu :: marks.filterMap (·.2.pdu) := rfl
    rw [hcons, hnone]
    rfl
  prompt mark hmem text htext := by
    rcases List.mem_cons.mp hmem with rfl | hmem
    · rfl
    · exact hrest.prompt mark hmem text htext
  intermediates := by
    rw [treated, List.filter_cons_of_neg (by simp)]
    refine hrest.intermediates.trans ?_
    rw [collect, collect, unprompted, unprompted, List.erase_cons_head]
  unfinished mark hmem := by
    rcases List.mem_cons.mp hmem with rfl | hmem
    · exact Treatment.noConfusion
    · exact hrest.unfinished mark hmem

/-- A line that is neither the prompt nor the end. -/
theorem Classified.plain (hplain : Plain pdu line) {treatment : Treatment}
    {had' : Nat} (hsent : treatment.pdu = none)
    (hopen : treatment ≠ .finalResponse)
    (hrest : Classified type start pdu had' lines marks)
    (hcollect : treated .intermediate ((line, treatment) :: marks) =
      collect type start pdu had (line :: lines)) :
    Classified type start pdu had (line :: lines)
      ((line, treatment) :: marks) where
  each := congrArg _ hrest.each
  sent := by
    rw [hplain.sent_cons, ← hrest.sent]
    exact List.filterMap_cons_none hsent
  prompt mark hmem text htext := by
    rcases List.mem_cons.mp hmem with rfl | hmem
    · rw [show treatment = .prompt text from htext] at hsent
      cases hsent
    · exact hrest.prompt mark hmem text htext
  intermediates := hcollect
  unfinished mark hmem := by
    rcases List.mem_cons.mp hmem with rfl | hmem
    · exact hopen
    · exact hrest.unfinished mark hmem

theorem Classified.taken (hplain : Plain pdu line)
    (htakes : takes type start had line)
    (hrest : Classified type start pdu (had + 1) lines marks) :
    Classified type start pdu had (line :: lines)
      ((line, .intermediate) :: marks) := by
  refine .plain hplain rfl Treatment.noConfusion hrest ?_
  rw [hplain.collect_cons_of_takes htakes, ← hrest.intermediates, treated,
    List.filter_cons_of_pos (by simp)]
  rfl

theorem Classified.passed (hplain : Plain pdu line)
    (htakes : ¬ takes type start had line)
    (hrest : Classified type start pdu had lines marks) :
    Classified type start pdu had (line :: lines)
      ((line, .unsolicited) :: marks) := by
  refine .plain hplain rfl Treatment.noConfusion hrest ?_
  rw [hplain.collect_cons_of_not_takes htakes, ← hrest.intermediates, treated,
    List.filter_cons_of_neg (by simp)]
  rfl

end Lines

/-- The command waits, and `intermediates` were collected so far. -/
structure Channel.Collecting (c : Channel) (response : ATResponse) : Prop where
  pending : c.spResponse = some response
  prefixed : c.Prefixed

section Run

variable {c c' : Channel} {response : ATResponse} {line : Bytes}

/-- There is room for the answers that the channel takes. -/
theorem takes_iff : takes c.sType c.sResponsePrefix
    response.intermediates.length line ↔ c.accepts response line = true := by
  have hlength : response.intermediates.length = 0 ↔
      response.intermediates = [] := List.length_eq_zero_iff
  unfold takes Channel.accepts
  cases c.sType with
  | NO_RESULT => simp [accepts]
  | NUMERIC => simp [accepts, hlength, and_comm]
  | SINGLELINE => simp [accepts, hlength, and_comm]
  | MULTILINE => simp [accepts]

/-- A line that is not final is the prompt, an answer or unsolicited. -/
theorem processLine_open (hcollecting : c.Collecting response)
    (hopen : isFinalResponse line = false) :
    (∃ pdu, c.sSmsPDU = some pdu ∧ line = promptLine ∧
      processLine c line = some (.prompt pdu, { c with sSmsPDU := none })) ∨
    Plain c.sSmsPDU line ∧
      (takes c.sType c.sResponsePrefix response.intermediates.length line ∧
        processLine c line =
          some (.intermediate, addIntermediate c response line) ∨
      ¬ takes c.sType c.sResponsePrefix response.intermediates.length line ∧
        processLine c line = some (.unsolicited, c)) := by
  obtain ⟨hpending, hprefixed⟩ := hcollecting
  by_cases hprompt : c.Prompted line
  · obtain ⟨pdu, hpdu, hline⟩ := processLine_prompt hpending hopen hprompt
    exact .inl ⟨pdu, hpdu, hprompt.2, hline⟩
  · have hline := processLine_other hpending hprefixed hopen hprompt
    refine .inr ⟨?_, ?_⟩
    · by_cases hpdu : c.sSmsPDU = none
      · exact .inl hpdu
      · exact .inr fun h => hprompt ⟨hpdu, h⟩
    · rw [takes_iff]
      by_cases haccepts : c.accepts response line = true
      · exact .inl ⟨haccepts, hline.trans (if_pos haccepts)⟩
      · exact .inr ⟨haccepts, hline.trans (if_neg haccepts)⟩

theorem Channel.Collecting.prompted (hcollecting : c.Collecting response) :
    ({ c with sSmsPDU := none } : Channel).Collecting response :=
  ⟨hcollecting.pending, hcollecting.prefixed⟩

theorem Channel.Collecting.add (hcollecting : c.Collecting response)
    (line : Bytes) : (addIntermediate c response line).Collecting
      { response with intermediates := line :: response.intermediates } :=
  ⟨rfl, hcollecting.prefixed⟩

/-- What a run over lines without a final response leaves. -/
structure Channel.Collected (c c' : Channel) (response : ATResponse)
    (answers : List Bytes) : Prop where
  pending : c'.spResponse = some
    { response with
      intermediates := answers.reverse ++ response.intermediates }
  reader : c'.sReaderClosed = c.sReaderClosed

/-- Induction on the lines, for a command that has collected some already. -/
theorem processLines_open (hcollecting : c.Collecting response)
    {lines : List Bytes}
    (hopen : ∀ line ∈ lines, isFinalResponse line = false) :
    ∃ marks c', processLines c lines = some (marks, c') ∧
      Classified c.sType c.sResponsePrefix c.sSmsPDU
        response.intermediates.length lines marks ∧
      c.Collected c' response (treated .intermediate marks) := by
  induction lines generalizing c response with
  | nil => exact ⟨[], c, rfl, .nil, hcollecting.pending, rfl⟩
  | cons line lines ih =>
      obtain ⟨hline, hlines⟩ := List.forall_mem_cons.mp hopen
      rcases processLine_open hcollecting hline with
        ⟨pdu, hpdu, rfl, hstep⟩ | ⟨hplain, ⟨htakes, hstep⟩ | ⟨htakes, hstep⟩⟩
      · obtain ⟨marks, c', hrun, hclassified, hcollected⟩ :=
          ih hcollecting.prompted hlines
        refine ⟨(promptLine, .prompt pdu) :: marks, c', ?_, ?_, ?_⟩
        · simp only [processLines, hstep, hrun, Option.bind_eq_bind,
            Option.bind_some]
          rfl
        · rw [hpdu]
          exact .prompted pdu hclassified
        · exact ⟨hcollected.pending, hcollected.reader⟩
      · obtain ⟨marks, c', hrun, hclassified, hcollected⟩ :=
          ih (hcollecting.add line) hlines
        refine ⟨(line, .intermediate) :: marks, c', ?_,
          .taken hplain htakes hclassified, ?_, hcollected.reader⟩
        · simp only [processLines, hstep, hrun, Option.bind_eq_bind,
            Option.bind_some]
          rfl
        · have hcons : treated .intermediate ((line, .intermediate) :: marks) =
              line :: treated .intermediate marks := rfl
          rw [hcollected.pending, hcons, List.reverse_cons, List.append_assoc,
            List.singleton_append]
      · obtain ⟨marks, c', hrun, hclassified, hcollected⟩ :=
          ih hcollecting hlines
        refine ⟨(line, .unsolicited) :: marks, c', ?_,
          .passed hplain htakes hclassified, hcollected.pending,
          hcollected.reader⟩
        simp only [processLines, hstep, hrun, Option.bind_eq_bind,
          Option.bind_some]
        rfl

theorem processLines_append {lines more : List Bytes}
    {marks : List (Bytes × Treatment)}
    (hfirst : processLines c lines = some (marks, c')) :
    processLines c (lines ++ more) = (processLines c' more).map
      fun (marks', c'') => (marks ++ marks', c'') := by
  induction lines generalizing c marks with
  | nil =>
      obtain ⟨rfl, rfl⟩ := Prod.mk.inj (Option.some_inj.mp hfirst)
      rw [List.nil_append]
      cases processLines c more <;> rfl
  | cons line lines ih =>
      simp only [processLines, List.cons_append, Option.bind_eq_bind]
        at hfirst ⊢
      obtain ⟨⟨treatment, c₁⟩, hline, hfirst⟩ :=
        Option.bind_eq_some_iff.mp hfirst
      obtain ⟨⟨marks₁, c₂⟩, hrest, hfirst⟩ := Option.bind_eq_some_iff.mp hfirst
      obtain ⟨rfl, rfl⟩ := Prod.mk.inj (Option.some_inj.mp hfirst)
      rw [hline, Option.bind_some, ih hrest]
      cases processLines c₂ more <;> rfl

/-- A call that waits has a new response for its command. -/
theorem send_waiting {command : Command} {accepted : Bool} {serial : Nat}
    (hsend : atSendCommandFullNolock c command accepted serial =
      (.waiting command serial, c')) :
    c'.spResponse = some ⟨serial, false, none, []⟩ ∧
      c'.sType = command.type ∧
      c'.sResponsePrefix = command.responsePrefix ∧
      c'.sSmsPDU = command.smspdu ∧ c'.sReaderClosed = false := by
  have hfail {c : Channel} {err : Int} {out : Option ATResponse} :
      fail c err out ≠ (.waiting command serial, c') :=
    fun h => Call.noConfusion (Prod.mk.inj h).1
  unfold atSendCommandFullNolock at hsend
  split at hsend
  next => exact absurd hsend hfail
  next =>
    dsimp only at hsend
    split at hsend
    next => exact absurd hsend hfail
    next =>
      unfold awaitResponse at hsend
      dsimp only at hsend
      split at hsend
      next hopen =>
        obtain ⟨-, rfl⟩ := Prod.mk.inj hsend
        exact ⟨rfl, rfl, rfl, rfl, hopen.2⟩
      next =>
        split at hsend
        next => exact absurd hsend hfail
        next => exact absurd hsend hfail

/-- The issuer is given the answers in the order in which they came. -/
theorem wakeUp_final (hpending : c.spResponse = some response)
    (hfinal : response.finalResponse ≠ none)
    (hreader : c.sReaderClosed = false) (command : Command) (serial : Nat)
    (hwants : command.wantsResponse = true) :
    (wakeUp c command serial false).1 = .returned 0 (some
      { response with intermediates := response.intermediates.reverse }) := by
  rw [wakeUp, if_neg Bool.noConfusion]
  unfold awaitResponse
  rw [hpending]
  dsimp only
  rw [if_neg fun h => hfinal h.1, if_pos hwants]
  simp [hreader, fail]

end Run

/-- While a command waits, every line up to the first final response is
treated in one way; its issuer is given the answers as they came, and the
final response. -/
theorem lines_classified {c c₀ : Channel} {command : Command} {accepted : Bool}
    {serial : Nat}
    (hsend : atSendCommandFullNolock c command accepted serial =
      (.waiting command serial, c₀))
    (hprefixed : command.Prefixed) {lines : List Bytes}
    (hopen : ∀ line ∈ lines, isFinalResponse line = false) {final : Bytes}
    (hfinal : isFinalResponse final = true) :
    ∃ marks c', processLines c₀ (lines ++ [final]) =
        some (marks ++ [(final, .finalResponse)], c') ∧
      Classified command.type command.responsePrefix command.smspdu 0 lines
        marks ∧
      (command.wantsResponse = true →
        (wakeUp c' command serial false).1 = .returned 0 (some
          { serial := serial
            success := isFinalResponseSuccess final
            finalResponse := some final
            intermediates := command.collected lines })) := by
  obtain ⟨hpending, htype, hstart, hpdu, hreader⟩ := send_waiting hsend
  have hcollecting : c₀.Collecting ⟨serial, false, none, []⟩ :=
    ⟨hpending, by rwa [Channel.Prefixed, htype, hstart]⟩
  obtain ⟨marks, c', hrun, hclassified, hcollected⟩ :=
    processLines_open hcollecting hopen
  rw [htype, hstart, hpdu] at hclassified
  have hanswers : treated .intermediate marks = command.collected lines :=
    hclassified.intermediates
  have hheld : c'.spResponse = some
      ⟨serial, false, none, (command.collected lines).reverse⟩ := by
    rw [hcollected.pending, hanswers, List.append_nil]
  have hlast := processLine_final hheld hfinal
  refine ⟨marks, handleFinalResponse c'
    ⟨serial, false, none, (command.collected lines).reverse⟩
    (isFinalResponseSuccess final) final, ?_, hclassified, ?_⟩
  · rw [processLines_append hrun]
    simp only [processLines, hlast, Option.bind_eq_bind, Option.bind_some]
    rfl
  · intro hwants
    have hgiven := @wakeUp_final
      (handleFinalResponse c'
        ⟨serial, false, none, (command.collected lines).reverse⟩
        (isFinalResponseSuccess final) final)
      ⟨serial, isFinalResponseSuccess final, some final,
        (command.collected lines).reverse⟩
      rfl (Option.some_ne_none final) (hcollected.reader.trans hreader)
      command serial hwants
    rw [hgiven, List.reverse_reverse]

namespace AtClassificationWitness

/-- A message is sent; its number is collected, and another line is not. -/
theorem message_sent : ∃ marks c',
    processLines AtCommandWitness.waiting.channel
      ([promptLine, .ofString "+CMTI: 1", .ofString "+CMGS: 5"] ++
        [.ofString "OK"]) =
      some (marks ++ [(.ofString "OK", .finalResponse)], c') ∧
    Classified .SINGLELINE (some (.ofString "+CMGS:")) (some (.ofString "00"))
      0 [promptLine, .ofString "+CMTI: 1", .ofString "+CMGS: 5"] marks ∧
    (AtCommandWitness.cmgs.wantsResponse = true →
      (wakeUp c' AtCommandWitness.cmgs 0 false).1 = .returned 0 (some
        { serial := 0
          success := isFinalResponseSuccess (.ofString "OK")
          finalResponse := some (.ofString "OK")
          intermediates := AtCommandWitness.cmgs.collected
            [promptLine, .ofString "+CMTI: 1", .ofString "+CMGS: 5"] })) :=
  lines_classified
    (show atSendCommandFullNolock (State.opened : State Bool).channel
      AtCommandWitness.cmgs true 0 = (.waiting AtCommandWitness.cmgs 0, _)
      from rfl)
    (fun _ => Option.some_ne_none _) (by decide) (by decide)

end AtClassificationWitness

end AtChannel

end MetaOS
