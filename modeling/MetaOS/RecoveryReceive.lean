/-
Recovery's command socket: what `event_loop` hands to `process_cmd` for each
result of `recv`, and which bytes `process_cmd` then looks at.
-/
import MetaOS.RecoverySocket

namespace MetaOS.RecoverySocket

open Bytes

/-- What one `recv` returns. -/
inductive Recv
  /-- A positive count, of bytes that now stand at the front of the buffer. -/
  | data (chunk : Bytes) (hpos : 0 < chunk.length)
      (hfits : chunk.length ≤ recordSize)
  /-- 0: the client has closed the connection. -/
  | closed
  /-- -1 -/
  | failed
  deriving DecidableEq, Repr

/-- The result as a `size_t`. -/
def Recv.recordlen : Recv → Nat
  | data chunk _ _ => chunk.length
  | closed => 0
  | failed => 2 ^ 32 - 1

/-- The buffer after the call. -/
def Recv.fill (record : Bytes) : Recv → Bytes
  | data chunk _ _ => chunk ++ record.drop chunk.length
  | closed | failed => record

/-- One round of the inner loop: the result, the buffer, and the length that
`process_cmd` is called with, or nothing if the loop is left. -/
structure Round where
  result : Recv
  record : Bytes
  buflen : Option Nat
  deriving DecidableEq, Repr

def round (record : Bytes) (result : Recv) : Round where
  result := result
  record := result.fill record
  buflen := if result.recordlen ≤ 0 then none else some result.recordlen

/-- The inner loop on a connection that is accepted. -/
def receive : (record : Bytes) → List Recv → List Round
  | _, [] => []
  | record, result :: results =>
      let r := round record result
      match r.buflen with
      | none => [r]
      | some _ => r :: receive r.record results

/-- A connection: what the buffer holds when it is accepted, and what its
`recv` calls return. -/
structure Connection where
  record : Bytes
  hrecord : record.length = recordSize
  results : List Recv

/-- The outer loop, connection by connection. -/
def serve (connections : List Connection) : List (List Round) :=
  connections.map fun c => receive c.record c.results

/-- What `process_cmd` does to memory. -/
inductive Access
  /-- It reads bytes of the buffer. -/
  | load (off len : Nat)
  /-- It copies bytes behind the first two integers to a local buffer. -/
  | memcpy (len : Nat)
  deriving DecidableEq, Repr

/-- The accesses of a print or install command behind its number. -/
def messageAccesses (record : Bytes) (buflen : Nat) : List Access :=
  if buflen < 8 then []
  else
    let messageLen := intBuffer record 1
    if messageLen < 0 ∨ (buflen : Int) - 8 < messageLen then [.load 4 4]
    else [.load 4 4, .memcpy messageLen.toNat]

/-- The accesses of `process_cmd`, whose first check does nothing. -/
def accesses (record : Bytes) (buflen : Nat) : List Access :=
  .load 0 4 ::
    match intBuffer record 0 with
    | 1 =>
        if buflen < 12 then []
        else if intBuffer record 1 < 0 ∨ 100 < intBuffer record 1 then
          [.load 4 4]
        else [.load 4 4, .load 8 4]
    | 2 => messageAccesses record buflen
    | 5 => messageAccesses record buflen
    | _ => []

/-- An access stays within the bytes of the command and the local buffers. -/
def Access.Within (buflen : Nat) : Access → Prop
  | load off len => off + len ≤ buflen
  | memcpy len => 8 + len ≤ buflen ∧ len ≤ recordSize

/-- The loop is left at the results 0 and -1 and no others; and `process_cmd`
is called with the bytes that were just received, and stays within them. -/
structure Round.Sound (r : Round) : Prop where
  ends : r.buflen = none ↔ r.result = .closed ∨ r.result = .failed
  calls (buflen : Nat) (hcall : r.buflen = some buflen) :
    1 ≤ buflen ∧ buflen ≤ recordSize ∧
      (∃ chunk hpos hfits, r.result = .data chunk hpos hfits ∧
        chunk.length = buflen ∧ r.record.take buflen = chunk) ∧
      ∀ access ∈ accesses r.record buflen, access.Within buflen

/-- What `recv` may return: a whole number of a command, or the end of the
connection. -/
def Recv.Whole : Recv → Prop
  | data chunk _ _ => 4 ≤ chunk.length
  | closed => True
  | failed => False

/-- The copy of a message leaves the buffers if and only if it is too long for
what follows the two integers. -/
theorem message_eq_some_none_iff (record : Bytes) (buflen : Nat) :
    message record buflen = some none ↔
      ∃ len, .memcpy len ∈ messageAccesses record buflen ∧
        recordSize - 8 < len := by
  unfold message messageAccesses
  dsimp only
  split_ifs with hshort hrange hlong
  · simp
  · simp
  · refine iff_of_true rfl ⟨(intBuffer record 1).toNat, by simp, ?_⟩
    simp only [recordSize] at hlong ⊢
    omega
  · refine iff_of_false (by simp) ?_
    rintro ⟨len, hmem, hlen⟩
    obtain rfl : len = (intBuffer record 1).toNat := by simpa using hmem
    simp only [recordSize] at hlong hlen
    omega

/-- The effect of a command is undefined only because of such a copy. -/
theorem processCmd_eq_none_iff (installs : Bytes → Bool) (record : Bytes)
    (buflen : Nat) :
    processCmd installs record buflen = none ↔
      ∃ len, .memcpy len ∈ accesses record buflen ∧ recordSize - 8 < len := by
  have hmessage := message_eq_some_none_iff record buflen
  unfold processCmd accesses
  generalize intBuffer record 0 = code
  split
  · simp
  · simp only [List.mem_cons, reduceCtorEq, false_or]
    split_ifs
    · simp
    · simp
    · simp
  · simp only [List.mem_cons, reduceCtorEq, false_or]
    rw [← hmessage]
    rcases message record buflen with _ | _ | copied
    · simp
    · simp
    · simp
  · simp
  · simp
  · simp only [List.mem_cons, reduceCtorEq, false_or]
    rw [← hmessage]
    rcases message record buflen with _ | _ | copied
    · simp
    · simp
    · simp
  · simp

theorem messageAccesses_within {record : Bytes} {buflen : Nat}
    (hfits : buflen ≤ recordSize) :
    ∀ access ∈ messageAccesses record buflen, access.Within buflen := by
  unfold messageAccesses
  dsimp only
  intro access hmem
  simp only [recordSize] at hfits
  split_ifs at hmem with hshort hrange
  · cases hmem
  · obtain rfl := List.mem_singleton.mp hmem
    exact Nat.le_of_not_lt hshort
  · rcases List.mem_pair.mp hmem with rfl | rfl
    · exact Nat.le_of_not_lt hshort
    · constructor
      · omega
      · simp only [recordSize]
        omega

theorem accesses_within {record : Bytes} {buflen : Nat} (hcode : 4 ≤ buflen)
    (hfits : buflen ≤ recordSize) :
    ∀ access ∈ accesses record buflen, access.Within buflen := by
  unfold accesses
  intro access hmem
  rcases List.mem_cons.mp hmem with rfl | hmem
  · exact hcode
  · split at hmem
    · split_ifs at hmem with hshort hrange
      · cases hmem
      · obtain rfl := List.mem_singleton.mp hmem
        exact (by omega : 4 + 4 ≤ buflen)
      · rcases List.mem_pair.mp hmem with rfl | rfl
        · exact (by omega : 4 + 4 ≤ buflen)
        · exact Nat.le_of_not_lt hshort
    · exact messageAccesses_within hfits access hmem
    · exact messageAccesses_within hfits access hmem
    · cases hmem

theorem round_sound_iff (record : Bytes) (result : Recv) :
    (round record result).Sound ↔ result.Whole := by
  cases result with
  | data chunk hpos hfits =>
      have hbuflen : (round record (.data chunk hpos hfits)).buflen =
          some chunk.length := if_neg (Nat.not_le.mpr hpos)
      constructor
      · intro hsound
        obtain ⟨-, -, -, hwithin⟩ := hsound.calls _ hbuflen
        exact hwithin (.load 0 4) List.mem_cons_self
      · intro hwhole
        constructor
        · rw [hbuflen]
          simp [round]
        · intro buflen hcall
          obtain rfl := Option.some_inj.mp (hbuflen.symm.trans hcall)
          refine ⟨hpos, hfits, ⟨chunk, hpos, hfits, rfl, rfl, ?_⟩,
            accesses_within hwhole hfits⟩
          exact List.take_left
  | closed =>
      refine iff_of_true ⟨?_, fun buflen hcall => ?_⟩ trivial
      · exact iff_of_true rfl (.inl rfl)
      · cases hcall
  | failed =>
      refine iff_of_false ?_ id
      intro hsound
      have hleft := hsound.ends.mpr (.inr rfl)
      cases hleft

theorem round_buflen_eq_none_iff (record : Bytes) (result : Recv) :
    (round record result).buflen = none ↔ result = .closed := by
  cases result with
  | data chunk hpos hfits =>
      have hbuflen : (round record (.data chunk hpos hfits)).buflen =
          some chunk.length := if_neg (Nat.not_le.mpr hpos)
      exact iff_of_false (by simp [hbuflen]) (by simp)
  | closed => exact iff_of_true rfl rfl
  | failed => exact iff_of_false (by simp [round, Recv.recordlen]) (by simp)

/-- The result of a `recv` that does not end the connection. -/
def Recv.received : Recv → Option Received
  | data chunk _ _ => some (.data chunk)
  | closed => none
  | failed => some .error

/-- What `process_cmd` does in the rounds of a connection. -/
def roundCalls (installs : Bytes → Bool) : List Round → Option (List Call)
  | [] => some []
  | r :: rounds =>
      match r.buflen with
      | none => some []
      | some buflen => do
          let calls ← processCmd installs r.record buflen
          let later ← roundCalls installs rounds
          return calls ++ later

/-- The calls of a connection are those of the loop on the results before its
end. -/
theorem roundCalls_receive (installs : Bytes → Bool) (record : Bytes)
    (results : List Recv) :
    roundCalls installs (receive record results) =
      eventLoop installs record
        ((results.takeWhile (· ≠ .closed)).filterMap Recv.received) := by
  induction results generalizing record with
  | nil => rfl
  | cons result results ih =>
      cases result with
      | data chunk hpos hfits =>
          have hbuflen : (round record (.data chunk hpos hfits)).buflen =
              some chunk.length := if_neg (Nat.not_le.mpr hpos)
          rw [receive, hbuflen]
          dsimp only
          rw [roundCalls, hbuflen]
          dsimp only
          rw [ih]
          rfl
      | closed => rfl
      | failed =>
          have hbuflen : (round record .failed).buflen =
              some (2 ^ 32 - 1) := rfl
          rw [receive, hbuflen]
          dsimp only
          rw [roundCalls, hbuflen]
          dsimp only
          rw [ih]
          rfl

theorem receive_sound_iff (record : Bytes) (results : List Recv) :
    (∀ r ∈ receive record results, r.Sound) ↔
      ∀ result ∈ results.takeWhile (· ≠ .closed), result.Whole := by
  induction results generalizing record with
  | nil => simp [receive]
  | cons result results ih =>
      rw [receive]
      by_cases hclosed : result = .closed
      · subst hclosed
        have hround := round_sound_iff record .closed
        simp [round, Recv.recordlen] at hround ⊢
        exact hround.mpr trivial
      · have hbuflen := mt (round_buflen_eq_none_iff record result).mp hclosed
        obtain ⟨buflen, hsome⟩ := Option.ne_none_iff_exists'.mp hbuflen
        rw [hsome]
        dsimp only
        rw [List.forall_mem_cons, round_sound_iff, ih,
          List.takeWhile_cons_of_pos (by simpa using hclosed),
          List.forall_mem_cons]

/-- All rounds are sound if and only if no `recv` fails and none returns a
part of a command's number only. -/
theorem serve_sound_iff (connections : List Connection) :
    (∀ rounds ∈ serve connections, ∀ r ∈ rounds, r.Sound) ↔
      ∀ c ∈ connections, ∀ result ∈ c.results.takeWhile (· ≠ .closed),
        result.Whole := by
  rw [serve, List.forall_mem_map]
  exact forall₂_congr fun c _ => receive_sound_iff c.record c.results

namespace RecoveryReceiveWitness

/-- A `recv` that fails at once, on a buffer of zeros. -/
def failing : Connection where
  record := List.replicate recordSize 0
  hrecord := List.length_replicate
  results := [.failed]

theorem failing_not_sound :
    ¬ ∀ connections, ∀ rounds ∈ serve connections, ∀ r ∈ rounds, r.Sound := by
  intro hclaim
  have hsound := hclaim [failing] _ List.mem_cons_self _ List.mem_cons_self
  have hleft : (some (2 ^ 32 - 1) : Option Nat) = none :=
    hsound.ends.mpr (.inr rfl)
  cases hleft

end RecoveryReceiveWitness

end MetaOS.RecoverySocket
