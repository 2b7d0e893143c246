/-
hardware/ril/libril/ril.cpp: the debug port.  `debugCallback` reads a count and
that many strings off a connection and issues the request that the first of
them names.
-/
import MetaOS.SendMessage

namespace MetaOS.DebugPort

open Bytes CString SendMessage

/-- What comes in on a connection: bytes that are there at once, or a failure
that the next `recv` reports. -/
inductive Arrival
  | bytes (chunk : Bytes) (hsome : chunk ≠ [])
  | failure
  deriving DecidableEq, Repr

/-- What is still to come; behind the last arrival the client has closed. -/
abbrev Connection := List Arrival

/-- A `recv` of up to `n` bytes, and never more than an `int` counts; nothing
if it fails. -/
def recv (n : Nat) : Connection → Option Bytes × Connection
  | [] => (some [], [])
  | .failure :: rest => (none, rest)
  | .bytes chunk _ :: rest =>
      let n := min n (2 ^ 31 - 1)
      (some (chunk.take n),
        if hrest : chunk.drop n = [] then rest
        else .bytes (chunk.drop n) hrest :: rest)

/-- The value of `recv`. -/
def ret : Option Bytes → Int
  | none => -1
  | some got => got.length

/-- The length of a string and the string, or nothing where the callback gives
up.  A string is missing where the call failed and the length was -1 too. -/
def recvArg (c : Connection) : Option (Option Bytes × Connection) :=
  match recv 4 c with
  | (some len, c) =>
      if len.length ≠ 4 then none
      else
        let (got, c) := recv (leInt len % 2 ^ 32).toNat c
        if ret got ≠ leInt len then none else some (got, c)
  | (none, _) => none

/-- The loop over the arguments from the one numbered `i`, or the number of the
one it gives up at. -/
def recvArgs : Nat → Nat → Connection → Except Nat (List (Option Bytes))
  | 0, _, _ => .ok []
  | left + 1, i, c =>
      match recvArg c with
      | none => .error i
      | some (arg, c) => (recvArgs left (i + 1) c).map (arg :: ·)

/-- What the callback has when it is done with reading. -/
inductive Received
  | noCount
  | broken (i : Nat)
  | complete (number : Int) (args : List (Option Bytes))
  deriving DecidableEq, Repr

def receive (c : Connection) : Received :=
  match recv 4 c with
  | (some count, c) =>
      if count.length ≠ 4 then .noCount
      else
        match recvArgs (leInt count).toNat 0 c with
        | .error i => .broken i
        | .ok args => .complete (leInt count) args
  | (none, _) => .noCount

inductive Request
  | RESET_RADIO
  | RADIO_POWER
  | OEM_HOOK_RAW
  | SET_NETWORK_SELECTION_AUTOMATIC
  | SETUP_DATA_CALL
  | DEACTIVATE_DATA_CALL
  | DIAL
  | ANSWER
  | HANGUP
  | SEND_SMS
  deriving DecidableEq, Repr

/-- The data of a request: an integer that was never set and a null pointer
are missing. -/
inductive Data
  | null
  | ints (values : List (Option Int))
  | strings (texts : List (Option Bytes))
  | dial (clir : Int) (address : Bytes)
  deriving DecidableEq, Repr

/-- What the callback does once it has read. -/
inductive Event
  /-- It looks at `args[k]`. -/
  | uses (k : Nat)
  | issueLocalRequest (request : Request) (data : Data)
  | networkStateChanged
  /-- It closes the command socket. -/
  | closesCommand
  | sleep (seconds : Nat)
  | invalidRequest
  /-- It closes the connection. -/
  | closes
  deriving DecidableEq, Repr

/-- The text that `args[k]` points to; `stray` is the one found where the
callback has put none. -/
def arg (stray : Nat → Bytes) (args : List (Option Bytes)) (k : Nat) : Bytes :=
  match args[k]? with
  | some (some text) => cstr text
  | _ => stray k

/-- The fifth integer is set twice and the sixth never. -/
def qxdmData (enable : Int) : Data :=
  .ints [some 65536, some 16, some enable, some 32, some 8, none]

/-- The cases of the switch. -/
def perform (arg : Nat → Bytes) : Int → List Event
  | 0 => [.issueLocalRequest Request.RESET_RADIO .null]
  | 1 => [.issueLocalRequest .RADIO_POWER (.ints [some 0]), .closesCommand]
  | 2 => [.networkStateChanged]
  | 3 => [.issueLocalRequest .OEM_HOOK_RAW (qxdmData 1)]
  | 4 => [.issueLocalRequest .OEM_HOOK_RAW (qxdmData 0)]
  | 5 => [.issueLocalRequest .RADIO_POWER (.ints [some 1]), .sleep 2,
      .issueLocalRequest .SET_NETWORK_SELECTION_AUTOMATIC .null]
  | 6 => (List.range' 1 6).map .uses ++
      [.issueLocalRequest .SETUP_DATA_CALL
        (.strings ((List.range' 1 6).map fun k => some (arg k)))]
  | 7 => [.issueLocalRequest .DEACTIVATE_DATA_CALL
      (.strings [some (ofString "1")])]
  | 8 => [.uses 1, .issueLocalRequest .DIAL (.dial 0 (arg 1))]
  | 9 => [.issueLocalRequest .ANSWER .null]
  | 10 => [.issueLocalRequest .HANGUP (.ints [some 1])]
  | 11 => [.uses 1,
      .issueLocalRequest .SEND_SMS (.strings [none, some (arg 1)])]
  | _ => [.invalidRequest]

/-- It looks at every argument that it frees. -/
def freeDebugCallbackArgs (number : Nat) : List Event :=
  (List.range number).map .uses

/-- `debugCallback` on a connection that it has accepted, in a memory that has
room for the arguments. -/
def debugCallback (stray : Nat → Bytes) (c : Connection) : List Event :=
  match receive c with
  | .noCount => []
  | .broken i => freeDebugCallbackArgs i
  | .complete number args =>
      .uses 0 :: (perform (arg stray args) (atoi (arg stray args 0)) ++
        freeDebugCallbackArgs number.toNat ++ [.closes])

/-- The bytes that come in on a connection. -/
def arrived : Connection → Bytes
  | [] => []
  | .failure :: rest => arrived rest
  | .bytes chunk _ :: rest => chunk ++ arrived rest

/-- A string on the wire, behind its length. -/
def prefixed (text : Bytes) : Bytes := ofLeInt 4 text.length ++ text

/-- The bytes begin with a count and that many strings. -/
def Message (bytes : Bytes) : Prop :=
  ∃ texts : List Bytes, texts.length < 2 ^ 31 ∧
    (∀ text ∈ texts, text.length < 2 ^ 31) ∧
    ∃ rest, bytes = ofLeInt 4 texts.length ++ texts.flatMap prefixed ++ rest

/-- The callback uses no argument beyond the count that it has received, and
issues a request for a message only. -/
structure Sound (c : Connection) : Prop where
  uses (stray : Nat → Bytes) (count : Bytes) (rest : Connection)
    (hcount : recv 4 c = (some count, rest)) (hlength : count.length = 4)
    (k : Nat) (huse : .uses k ∈ debugCallback stray c) :
    (k : Int) < leInt count
  issues (hmessage : ¬ Message (arrived c)) (stray : Nat → Bytes)
    (request : Request) (data : Data) :
    .issueLocalRequest request data ∉ debugCallback stray c

/-- Strings that a connection delivers whole, a failing call with the length -1
among them. -/
inductive Strings : Connection → List (Option Bytes) → Prop
  | done (c : Connection) : Strings c []
  | next {c c' c'' : Connection} {len : Bytes} {got : Option Bytes}
      {args : List (Option Bytes)} (hlen : recv 4 c = (some len, c'))
      (hwidth : len.length = 4)
      (hgot : recv (leInt len % 2 ^ 32).toNat c' = (got, c''))
      (hwhole : ret got = leInt len) (hrest : Strings c'' args) :
      Strings c (got :: args)

/-- How many arguments an option takes, itself included. -/
def needed : Int → Nat
  | 6 => 7
  | 8 => 2
  | 11 => 2
  | _ => 1

/-- The options that issue a request. -/
def Requests (option : Int) : Prop := 0 ≤ option ∧ option ≤ 11 ∧ option ≠ 2

/-- Where a count and its strings are delivered whole, the count is positive
and the first string is an option that takes no more than the count; and an
option that issues a request has no failing call behind it. -/
def Enough (c : Connection) : Prop :=
  ∀ count c' args, recv 4 c = (some count, c') → count.length = 4 →
    Strings c' args → args.length = (leInt count).toNat →
    0 < leInt count ∧ ∃ option rest, args = some option :: rest ∧
      (needed (atoi (cstr option)) : Int) ≤ leInt count ∧
      (none ∈ rest → ¬ Requests (atoi (cstr option)))

section Reading

variable {c c' : Connection} {args : List (Option Bytes)}

theorem recvArg_eq_some_iff {got : Option Bytes} :
    recvArg c = some (got, c') ↔
      ∃ len between, recv 4 c = (some len, between) ∧ len.length = 4 ∧
        recv (leInt len % 2 ^ 32).toNat between = (got, c') ∧
        ret got = leInt len := by
  unfold recvArg
  obtain ⟨len, between⟩ := recv 4 c
  cases len with
  | none => simp
  | some len =>
      dsimp only
      split_ifs with hwidth hwhole
      · simp [hwidth]
      · refine iff_of_false (by simp) ?_
        rintro ⟨len', between', hlen, -, hgot, hret⟩
        cases hlen
        rw [hgot] at hwhole
        exact hwhole hret
      · constructor
        · intro heq
          cases heq
          exact ⟨len, between, rfl, not_not.mp hwidth, rfl, not_not.mp hwhole⟩
        · rintro ⟨len', between', hlen, -, hgot, -⟩
          cases hlen
          rw [hgot]

theorem recvArgs_eq_ok_iff {left i : Nat} :
    recvArgs left i c = .ok args ↔ Strings c args ∧ args.length = left := by
  induction left generalizing i c args with
  | zero =>
      constructor
      · intro heq
        cases heq
        exact ⟨.done c, rfl⟩
      · rintro ⟨-, hlength⟩
        rw [List.length_eq_zero_iff.mp hlength]
        rfl
  | succ left ih =>
      rw [recvArgs]
      constructor
      · intro heq
        cases hfirst : recvArg c with
        | none => rw [hfirst] at heq; cases heq
        | some first =>
            obtain ⟨got, after⟩ := first
            rw [hfirst] at heq
            dsimp only at heq
            cases hrest : recvArgs left (i + 1) after with
            | error j => rw [hrest] at heq; cases heq
            | ok rest =>
                rw [hrest] at heq
                cases heq
                obtain ⟨hstrings, hlength⟩ := ih.mp hrest
                obtain ⟨len, between, hlen, hwidth, hgot, hwhole⟩ :=
                  recvArg_eq_some_iff.mp hfirst
                refine ⟨.next hlen hwidth hgot hwhole hstrings, ?_⟩
                rw [List.length_cons, hlength]
      · rintro ⟨hstrings, hlength⟩
        cases hstrings with
        | done => cases hlength
        | next hlen hwidth hgot hwhole hrest =>
            have hfirst := recvArg_eq_some_iff.mpr
              ⟨_, _, hlen, hwidth, hgot, hwhole⟩
            have hargs := ih (i := i + 1).mpr
              ⟨hrest, Nat.succ.inj hlength⟩
            rw [hfirst]
            dsimp only
            rw [hargs]
            rfl

/-- The loop gives up at an argument that it was to read. -/
theorem recvArgs_error_lt {left i j : Nat}
    (herror : recvArgs left i c = .error j) : j < i + left := by
  induction left generalizing i c with
  | zero => cases herror
  | succ left ih =>
      rw [recvArgs] at herror
      cases hfirst : recvArg c with
      | none =>
          rw [hfirst] at herror
          cases herror
          omega
      | some first =>
          rw [hfirst] at herror
          dsimp only at herror
          cases hrest : recvArgs left (i + 1) first.2 with
          | error k =>
              rw [hrest] at herror
              cases herror
              have hlt := ih hrest
              omega
          | ok rest => rw [hrest] at herror; cases herror

theorem receive_eq_complete_iff {number : Int} :
    receive c = .complete number args ↔
      ∃ count rest, recv 4 c = (some count, rest) ∧ count.length = 4 ∧
        leInt count = number ∧ Strings rest args ∧
        args.length = number.toNat := by
  unfold receive
  obtain ⟨count, rest⟩ := recv 4 c
  cases count with
  | none => simp
  | some count =>
      dsimp only
      split_ifs with hwidth
      · simp [hwidth]
      · constructor
        · intro heq
          cases hargs : recvArgs (leInt count).toNat 0 rest with
          | error i => rw [hargs] at heq; cases heq
          | ok found =>
              rw [hargs] at heq
              cases heq
              exact ⟨count, rest, rfl, not_not.mp hwidth, rfl,
                recvArgs_eq_ok_iff.mp hargs⟩
        · rintro ⟨count', rest', heq, -, rfl, hfound⟩
          cases heq
          rw [recvArgs_eq_ok_iff.mpr hfound]

theorem arrived_recv {n : Nat} {got : Bytes}
    (hrecv : recv n c = (some got, c')) : arrived c = got ++ arrived c' := by
  cases c with
  | nil => cases hrecv; rfl
  | cons arrival rest =>
      cases arrival with
      | failure => cases hrecv
      | bytes chunk hsome =>
          obtain ⟨hgot, hrest⟩ := Prod.mk.inj hrecv
          cases hgot
          rw [← hrest]
          split_ifs with hdrop
          · rw [arrived]
            nth_rewrite 1 [← List.take_append_drop (min n (2 ^ 31 - 1)) chunk]
            rw [hdrop, List.append_nil]
          · rw [arrived, arrived, ← List.append_assoc,
              List.take_append_drop]

theorem leInt_lt {len : Bytes} (hwidth : len.length = 4) :
    leInt len < 2 ^ 31 := by
  have hrange := (leInt_range len).2
  rw [hwidth] at hrange
  omega

/-- Strings among which no call has failed are texts on the wire. -/
theorem Strings.arrived_eq (hstrings : Strings c args)
    (hnone : none ∉ args) :
    ∃ (texts : List Bytes) (rest : Bytes), args = texts.map some ∧
      (∀ text ∈ texts, text.length < 2 ^ 31) ∧
      arrived c = texts.flatMap prefixed ++ rest := by
  induction hstrings with
  | done c => exact ⟨[], arrived c, rfl, by simp, rfl⟩
  | next hlen hwidth hgot hwhole hrest ih =>
      rename_i len got args
      rw [List.mem_cons, not_or] at hnone
      obtain ⟨texts, rest, rfl, hfits, harrived⟩ := ih hnone.2
      cases got with
      | none => exact absurd rfl hnone.1
      | some text =>
          have hlength : (text.length : Int) = leInt len := hwhole
          have hlt := leInt_lt hwidth
          refine ⟨text :: texts, rest, rfl, ?_, ?_⟩
          · rw [List.forall_mem_cons]
            exact ⟨by omega, hfits⟩
          · have hprefixed : prefixed text = len ++ text := by
              rw [prefixed, hlength, ← hwidth, ofLeInt_leInt]
            rw [arrived_recv hlen, arrived_recv hgot, harrived,
              List.flatMap_cons, hprefixed]
            simp only [List.append_assoc]

/-- The strings of a message are read as they stand there. -/
theorem Strings.eq_texts (hstrings : Strings c args) {texts : List Bytes}
    {rest : Bytes} (hfits : ∀ text ∈ texts, text.length < 2 ^ 31)
    (harrived : arrived c = texts.flatMap prefixed ++ rest)
    (hlength : args.length = texts.length) : args = texts.map some := by
  induction hstrings generalizing texts with
  | done c =>
      rw [List.length_eq_zero_iff.mp hlength.symm]
      rfl
  | next hlen hwidth hgot hwhole hrest ih =>
      rename_i len got args
      cases texts with
      | nil => cases hlength
      | cons text texts =>
          rw [List.forall_mem_cons] at hfits
          rw [arrived_recv hlen, List.flatMap_cons, prefixed,
            List.append_assoc, List.append_assoc] at harrived
          obtain ⟨rfl, hbehind⟩ := List.append_inj harrived
            (hwidth.trans (ofLeInt_length _ _).symm)
          rw [RecoverySocket.leInt_ofLeInt_of_range (by omega)] at hwhole
          cases got with
          | none =>
              rw [ret] at hwhole
              omega
          | some found =>
              rw [arrived_recv hgot] at hbehind
              have hsame : found.length = text.length := by
                rw [ret] at hwhole
                omega
              obtain ⟨rfl, hothers⟩ := List.append_inj hbehind hsame
              rw [ih hfits.2 hothers (Nat.succ.inj hlength)]
              rfl

theorem message_iff {count : Bytes} (hcount : recv 4 c = (some count, c'))
    (hwidth : count.length = 4) (hpos : 0 < leInt count)
    (hstrings : Strings c' args)
    (hlength : args.length = (leInt count).toNat) :
    Message (arrived c) ↔ none ∉ args := by
  rw [arrived_recv hcount]
  constructor
  · rintro ⟨texts, hnumber, hfits, rest, harrived⟩
    rw [List.append_assoc] at harrived
    obtain ⟨rfl, hbehind⟩ := List.append_inj harrived
      (hwidth.trans (ofLeInt_length _ _).symm)
    rw [RecoverySocket.leInt_ofLeInt_of_range (by omega)] at hlength
    rw [hstrings.eq_texts hfits hbehind (by omega)]
    simp
  · intro hnone
    obtain ⟨texts, rest, rfl, hfits, harrived⟩ := hstrings.arrived_eq hnone
    rw [List.length_map] at hlength
    have hnumber : (texts.length : Int) = leInt count := by omega
    have hlt := leInt_lt hwidth
    refine ⟨texts, by omega, hfits, rest, ?_⟩
    rw [harrived, hnumber, ← hwidth, ofLeInt_leInt, List.append_assoc]

/-- The callback gives up at one of the arguments that the count announces. -/
theorem broken_lt {i : Nat} {count : Bytes} (hreceive : receive c = .broken i)
    (hcount : recv 4 c = (some count, c')) : i < (leInt count).toNat := by
  rw [receive, hcount] at hreceive
  dsimp only at hreceive
  split_ifs at hreceive
  cases hargs : recvArgs (leInt count).toNat 0 c' with
  | ok args => rw [hargs] at hreceive; cases hreceive
  | error j =>
      rw [hargs] at hreceive
      cases hreceive
      have hlt := recvArgs_error_lt hargs
      omega

end Reading

theorem uses_perform_iff (arg : Nat → Bytes) (option : Int) (k : Nat) :
    .uses k ∈ perform arg option ↔ 1 ≤ k ∧ k < needed option := by
  unfold perform needed
  split <;> simp [List.range'] <;> omega

theorem issues_perform_iff (arg : Nat → Bytes) (option : Int) :
    (∃ request data, .issueLocalRequest request data ∈ perform arg option) ↔
      Requests option := by
  unfold perform Requests
  split <;> simp [exists_or]
  grind

theorem mem_free_iff {number k : Nat} :
    .uses k ∈ freeDebugCallbackArgs number ↔ k < number := by
  simp [freeDebugCallbackArgs]

theorem issue_not_mem_free {number : Nat} {request : Request} {data : Data} :
    .issueLocalRequest request data ∉ freeDebugCallbackArgs number := by
  simp [freeDebugCallbackArgs]

/-- What is looked at once all is read. -/
theorem uses_debugCallback_iff {stray : Nat → Bytes} {c : Connection}
    {number : Int} {args : List (Option Bytes)}
    (hreceive : receive c = .complete number args) (k : Nat) :
    .uses k ∈ debugCallback stray c ↔
      k < needed (atoi (arg stray args 0)) ∨ k < number.toNat := by
  have hpos : 1 ≤ needed (atoi (arg stray args 0)) := by
    unfold needed
    split <;> decide
  have hperform := uses_perform_iff (arg stray args)
    (atoi (arg stray args 0)) k
  rw [debugCallback, hreceive]
  simp only [List.mem_cons, List.mem_append, Event.uses.injEq, hperform,
    mem_free_iff, List.not_mem_nil, reduceCtorEq, or_false]
  omega

theorem issues_debugCallback_iff {stray : Nat → Bytes} {c : Connection}
    {number : Int} {args : List (Option Bytes)}
    (hreceive : receive c = .complete number args) :
    (∃ request data, .issueLocalRequest request data ∈
        debugCallback stray c) ↔
      Requests (atoi (arg stray args 0)) := by
  rw [← issues_perform_iff (arg stray args), debugCallback, hreceive]
  simp only [List.mem_cons, List.mem_append, issue_not_mem_free,
    List.not_mem_nil, reduceCtorEq, false_or, or_false]

theorem needed_pos (option : Int) : 0 < needed option := by
  unfold needed
  split <;> decide

section Soundness

variable {c : Connection}

theorem Enough.uses (henough : Enough c) {stray : Nat → Bytes} {count : Bytes}
    {c' : Connection} (hcount : recv 4 c = (some count, c'))
    (hwidth : count.length = 4) {k : Nat}
    (huse : .uses k ∈ debugCallback stray c) : (k : Int) < leInt count := by
  cases hreceive : receive c with
  | noCount =>
      rw [debugCallback, hreceive] at huse
      cases huse
  | broken i =>
      rw [debugCallback, hreceive] at huse
      have hk := mem_free_iff.mp huse
      have hi := broken_lt hreceive hcount
      omega
  | complete number args =>
      have hk := (uses_debugCallback_iff hreceive k).mp huse
      obtain ⟨count', rest, hcount', -, rfl, hstrings, hlength⟩ :=
        receive_eq_complete_iff.mp hreceive
      obtain ⟨rfl, rfl⟩ : count = count' ∧ c' = rest := by
        simpa using hcount.symm.trans hcount'
      obtain ⟨hpos, option, others, rfl, hneeded, -⟩ :=
        henough count c' args hcount hwidth hstrings hlength
      change k < needed (atoi (cstr option)) ∨ _ at hk
      omega

theorem Enough.issues (henough : Enough c)
    (hmessage : ¬ Message (arrived c)) {stray : Nat → Bytes}
    {request : Request} {data : Data} :
    .issueLocalRequest request data ∉ debugCallback stray c := by
  intro hissue
  cases hreceive : receive c with
  | noCount =>
      rw [debugCallback, hreceive] at hissue
      cases hissue
  | broken i =>
      rw [debugCallback, hreceive] at hissue
      exact issue_not_mem_free hissue
  | complete number args =>
      have hrequests := (issues_debugCallback_iff hreceive).mp
        ⟨request, data, hissue⟩
      obtain ⟨count, rest, hcount, hwidth, rfl, hstrings, hlength⟩ :=
        receive_eq_complete_iff.mp hreceive
      obtain ⟨hpos, option, others, rfl, -, hquiet⟩ :=
        henough count rest args hcount hwidth hstrings hlength
      have hfails := mt
        (message_iff hcount hwidth hpos hstrings hlength).mpr hmessage
      have hnone : none ∈ others := by simpa using hfails
      exact hquiet hnone hrequests

theorem Sound.enough (hsound : Sound c) : Enough c := by
  intro count c' args hcount hwidth hstrings hlength
  have hreceive := receive_eq_complete_iff.mpr
    ⟨count, c', hcount, hwidth, rfl, hstrings, hlength⟩
  have hused : ∀ stray k, k < needed (atoi (arg stray args 0)) →
      (k : Int) < leInt count := fun stray k hk =>
    hsound.uses stray count c' hcount hwidth k
      ((uses_debugCallback_iff hreceive k).mpr (.inl hk))
  have hpos : 0 < leInt count := hused (fun _ => []) 0 (needed_pos _)
  -- With a failing call among the strings there is no message.
  have hquiet : none ∈ args → ∀ stray,
      ¬ Requests (atoi (arg stray args 0)) := by
    intro hnone stray hrequests
    have hmessage : ¬ Message (arrived c) := fun hmessage =>
      (message_iff hcount hwidth hpos hstrings hlength).mp hmessage hnone
    obtain ⟨request, data, hissue⟩ :=
      (issues_debugCallback_iff hreceive).mpr hrequests
    exact hsound.issues hmessage stray request data hissue
  refine ⟨hpos, ?_⟩
  cases args with
  | nil =>
      rw [List.length_nil] at hlength
      omega
  | cons first rest =>
      cases first with
      | none =>
          -- The option is whatever stands where it was to be put.
          refine absurd ?_ (hquiet List.mem_cons_self (fun _ => ofString "0"))
          change Requests (atoi (ofString "0"))
          unfold Requests
          decide
      | some option =>
          refine ⟨option, rest, rfl, ?_, fun hnone => ?_⟩
          · have hlt := hused (fun _ => []) (needed (atoi (cstr option)) - 1)
              (Nat.sub_lt (needed_pos _) Nat.one_pos)
            have hone := needed_pos (atoi (cstr option))
            omega
          · exact hquiet (List.mem_cons_of_mem _ hnone) (fun _ => [])

/-- The callback is sound if and only if the connection brings enough. -/
theorem sound_iff (c : Connection) : Sound c ↔ Enough c := by
  constructor
  · exact Sound.enough
  · intro henough
    exact ⟨fun _ _ _ hcount hwidth _ huse => henough.uses hcount hwidth huse,
      fun hmessage _ _ _ => henough.issues hmessage⟩

end Soundness

end MetaOS.DebugPort
