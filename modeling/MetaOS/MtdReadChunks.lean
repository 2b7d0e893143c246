/-
How `mtd_read_data` cuts up the blocks that `read_block` yields.

The environment is arbitrary, so `read_block` may yield any blocks and fail at
any time.  A call that succeeds has handed out the bytes that came next.  A
call that fails drops what it had taken so far: the next call starts behind
it.
-/
import MetaOS.MtdReader

namespace MetaOS

namespace Mtd

/-- An environment of the reader.  A read that succeeds is a full one. -/
structure Source (part : Partition) (S : Type) where
  handler : (c : Call) → S → Answer c × S
  read_length : ∀ {state data},
    (handler (.read part.eraseSize) state).1 = some data →
      data.length = part.eraseSize

/-- Successive `mtd_read_data` calls on one context, whether they succeed or
not. -/
def readCalls (part : Partition) : ReadContext → List Nat →
    MtdProg (List (Option Bytes) × ReadContext)
  | ctx, [] => pure ([], ctx)
  | ctx, len :: lens => do
      let (data, ctx) ← mtdReadData part ctx len
      let (datas, ctx) ← readCalls part ctx lens
      pure (data :: datas, ctx)

/-- How many blocks a request needs when the buffer is used up. -/
def blocksFor (part : Partition) (ctx : ReadContext) (len : Nat) : Nat :=
  (len - ctx.unread.length + part.eraseSize - 1) / part.eraseSize

variable {part : Partition} {S : Type} (source : Source part S)

namespace Source

/-- One call of `read_block`. -/
def next (state : S) : Option Bytes × S :=
  (readBlock part).eval source.handler state

/-- Successive outcomes of `read_block`. -/
inductive Fetches : S → List (Option Bytes) → S → Prop
  | nil {state : S} : Fetches state [] state
  | cons {state middle stop : S} {outcome : Option Bytes}
      {outcomes : List (Option Bytes)}
      (hnext : source.next state = (outcome, middle))
      (hrest : Fetches middle outcomes stop) :
      Fetches state (outcome :: outcomes) stop

variable {source}

theorem Fetches.append {state middle stop : S}
    {first second : List (Option Bytes)}
    (hfirst : source.Fetches state first middle)
    (hsecond : source.Fetches middle second stop) :
    source.Fetches state (first ++ second) stop := by
  induction hfirst with
  | nil => exact hsecond
  | cons hnext _ ih => exact Fetches.cons hnext (ih hsecond)

theorem Fetches.single {state stop : S} {outcome : Option Bytes}
    (hnext : source.next state = (outcome, stop)) :
    source.Fetches state [outcome] stop :=
  Fetches.cons hnext Fetches.nil

theorem Fetches.step {state stop : S} {outcome : Option Bytes}
    {outcomes : List (Option Bytes)}
    (hnext : (source.next state).1 = outcome)
    (hrest : source.Fetches (source.next state).2 outcomes stop) :
    source.Fetches state (outcome :: outcomes) stop :=
  Fetches.cons (Prod.ext hnext rfl) hrest

/-- The environment decides: there is only one sequence of outcomes. -/
theorem Fetches.determined {state stop stop' : S}
    {outcomes outcomes' : List (Option Bytes)}
    (hfetch : source.Fetches state outcomes stop)
    (hfetch' : source.Fetches state outcomes' stop')
    (hle : outcomes.length ≤ outcomes'.length) : outcomes <+: outcomes' := by
  induction hfetch generalizing outcomes' with
  | nil => exact List.nil_prefix
  | cons hnext _ ih =>
      cases hfetch' with
      | nil => cases hle
      | cons hnext' hrest' =>
          rw [hnext] at hnext'
          cases hnext'
          exact List.prefix_cons_inj _ |>.mpr
            (ih hrest' (Nat.le_of_succ_le_succ hle))

/-- The answer to a read is a whole block. -/
def Whole (part : Partition) : (c : Call) → Answer c → Prop
  | .read len, r => len = part.eraseSize → ∀ data, r = some data →
      data.length = part.eraseSize
  | _, _ => True

theorem whole_handler (c : Call) (state : S) :
    Whole part c (source.handler c state).1 := by
  cases c with
  | read len =>
      rintro rfl data hdata
      exact source.read_length hdata
  | openDevice => trivial
  | lseekCur => trivial
  | lseekSet pos => trivial
  | write data => trivial
  | getBadBlock pos => trivial
  | erase start len => trivial
  | eccGetStats => trivial
  | close => trivial

theorem succeeds_readBlockLoop (before blocks pos : Nat) :
    (readBlockLoop part before blocks pos).Succeeds (Whole part)
      fun r => ∀ data, r = some data → data.length = part.eraseSize := by
  induction blocks generalizing pos with
  | zero =>
      intro data hdata
      cases hdata
  | succ blocks ih =>
      intro found _
      cases found with
      | false => exact ih _
      | true =>
          intro read hread
          cases read with
          | none => exact ih _
          | some data =>
              intro stats _
              cases stats with
              | none =>
                  intro data hdata
                  cases hdata
              | some after =>
                  change Prog.Succeeds _ _ (if _ then _ else _)
                  split
                  · exact ih _
                  · intro mark _
                    change Prog.Succeeds _ _ (if _ then _ else _)
                    split
                    · exact ih _
                    · change Prog.Succeeds _ _ (if _ then _ else _)
                      split
                      · exact hread rfl
                      · exact ih _

/-- What `read_block` yields is a whole block. -/
theorem next_length {state stop : S} {data : Bytes}
    (hnext : source.next state = (some data, stop)) :
    data.length = part.eraseSize := by
  have hgood : (readBlock part).Succeeds (Whole part)
      fun r => ∀ data, r = some data → data.length = part.eraseSize := by
    intro stats _
    cases stats with
    | none =>
        intro data hdata
        cases hdata
    | some before =>
        intro pos _
        cases pos with
        | none =>
            intro data hdata
            cases hdata
        | some pos => exact succeeds_readBlockLoop _ _ _
  have hsmooth : (readBlock part).Smooth (Whole part) source.handler state :=
    Prog.Smooth.of_all whole_handler _ _
  exact hgood.eval hsmooth data (congrArg Prod.fst hnext)

theorem Fetches.lengths {state stop : S} {blocks : List Bytes}
    (hfetch : source.Fetches state (blocks.map some) stop) :
    ∀ block ∈ blocks, block.length = part.eraseSize := by
  induction blocks generalizing state with
  | nil => simp
  | cons block blocks ih =>
      cases hfetch with
      | cons hnext hrest =>
          intro other hmem
          rcases List.mem_cons.mp hmem with rfl | hmem
          · exact next_length hnext
          · exact ih hrest other hmem

end Source

section OneCall

/-- One call of `mtd_read_data`: it has handed out the bytes that came next,
or it has met a failure of `read_block`, before it had all the blocks it
needs, and dropped what it had. -/
inductive ReadCall (len : Nat) (ctx : ReadContext) (state : S) :
    Option Bytes → ReadContext → S → Prop
  | served {data : Bytes} {blocks : List Bytes} {ctx' : ReadContext}
      {state' : S} (hfetch : source.Fetches state (blocks.map some) state')
      (hlength : data.length = len)
      (hdata : data ++ ctx'.unread = ctx.unread ++ blocks.flatten) :
      ReadCall len ctx state (some data) ctx' state'
  | broke {blocks : List Bytes} {ctx' : ReadContext} {state' : S}
      (hfetch : source.Fetches state (blocks.map some ++ [none]) state')
      (hfew : blocks.length < blocksFor part ctx len)
      (hdropped : ctx'.unread = []) :
      ReadCall len ctx state none ctx' state'

theorem eval_readDirect (count : Nat) (state : S) :
    (∃ (blocks : List Bytes) (state' : S), blocks.length = count ∧
      source.Fetches state (blocks.map some) state' ∧
      (readDirect part count).eval source.handler state =
        (some blocks.flatten, state')) ∨
    ∃ (blocks : List Bytes) (state' : S), blocks.length < count ∧
      source.Fetches state (blocks.map some ++ [none]) state' ∧
      (readDirect part count).eval source.handler state = (none, state') := by
  induction count generalizing state with
  | zero => exact Or.inl ⟨[], state, rfl, Source.Fetches.nil, rfl⟩
  | succ count ih =>
      obtain ⟨⟨outcome, middle⟩, hnext⟩ : ∃ r, source.next state = r :=
        ⟨_, rfl⟩
      have heval : (readBlock part).eval source.handler state =
          (outcome, middle) := hnext
      rw [readDirect, Prog.eval_bind, heval]
      cases outcome with
      | none =>
          refine Or.inr ⟨[], middle, Nat.succ_pos count, ?_, rfl⟩
          exact Source.Fetches.single hnext
      | some data =>
          rcases ih middle with ⟨blocks, stop, hcount, hfetch, hrest⟩ |
            ⟨blocks, stop, hcount, hfetch, hrest⟩
          · refine Or.inl ⟨data :: blocks, stop, congrArg (· + 1) hcount,
              Source.Fetches.cons hnext hfetch, ?_⟩
            simp only [Prog.eval_bind, hrest, Prog.pure_eq_ret,
              Prog.eval_ret, List.flatten_cons]
          · refine Or.inr ⟨data :: blocks, stop, Nat.succ_lt_succ hcount,
              Source.Fetches.cons hnext hfetch, ?_⟩
            simp only [Prog.eval_bind, hrest, Prog.pure_eq_ret,
              Prog.eval_ret]

variable {source}

/-- The buffer is enough. -/
theorem eval_readLoop_buffered {len : Nat} {ctx : ReadContext} (state : S)
    (hready : ctx.Ready part) (hroom : len ≤ ctx.unread.length) :
    ∃ result ctx' state', (readLoop part (len + 1) len ctx).eval
        source.handler state = ((result, ctx'), state') ∧ ctx'.Ready part ∧
      ReadCall source len ctx state result ctx' state' := by
  have hunread : ctx.unread.length = part.eraseSize - ctx.consumed := by
    rw [ReadContext.unread, List.length_drop, hready.1]
  have hnone : source.Fetches state (([] : List Bytes).map some) state :=
    Source.Fetches.nil
  cases len with
  | zero =>
      refine ⟨some [], ctx, state, rfl, hready, ?_⟩
      refine ReadCall.served hnone rfl ?_
      rw [List.flatten_nil, List.append_nil, List.nil_append]
  | succ len =>
      have hfits : ctx.consumed + (len + 1) ≤ part.eraseSize := by omega
      refine ⟨some (ctx.unread.take (len + 1)),
        { ctx with consumed := ctx.consumed + (len + 1) }, state, ?_,
        ⟨hready.1, hfits⟩, ?_⟩
      · rw [readLoop_buffered (Nat.succ_pos len) hfits]
        rfl
      · refine ReadCall.served hnone ?_ ?_
        · rw [List.length_take_of_le hroom]
        · rw [List.flatten_nil, List.append_nil, ReadContext.unread,
            ReadContext.unread, ← List.drop_drop, List.take_append_drop]

/-- The buffer is not enough. -/
theorem eval_readLoop_beyond {fuel left : Nat} {ctx : ReadContext}
    (state : S) (hready : ctx.Ready part) (hleft : 0 < left) :
    ∃ result ctx' state',
      (readLoop part (fuel + 2) (ctx.unread.length + left) ctx).eval
        source.handler state = ((result, ctx'), state') ∧ ctx'.Ready part ∧
      ReadCall source (ctx.unread.length + left) ctx state result ctx'
        state' := by
  have hsize := part.eraseSize_pos
  have hspent : ({ ctx with consumed := part.eraseSize } :
      ReadContext).unread = [] := by
    rw [ReadContext.unread, List.drop_of_length_le (le_of_eq hready.1)]
  have hneed : blocksFor part ctx (ctx.unread.length + left) =
      (left + part.eraseSize - 1) / part.eraseSize := by
    rw [blocksFor, Nat.add_sub_cancel_left]
  have hdiv := Nat.div_add_mod left part.eraseSize
  have hmod := Nat.mod_lt left hsize
  have hdirect : left / part.eraseSize ≤
      blocksFor part ctx (ctx.unread.length + left) := by
    rw [hneed]
    exact Nat.div_le_div_right (by omega)
  rw [readLoop_beyond hready rfl hleft]
  rcases eval_readDirect source (left / part.eraseSize) state with
    ⟨blocks, middle, hcount, hfetch, heval⟩ |
      ⟨blocks, middle, hcount, hfetch, heval⟩
  · have hlength : blocks.flatten.length =
        part.eraseSize * (left / part.eraseSize) := by
      rw [flatten_length_eq_mul hfetch.lengths, hcount, Nat.mul_comm]
    by_cases hexact : left % part.eraseSize = 0
    · refine ⟨some (ctx.unread ++ blocks.flatten),
        { ctx with consumed := part.eraseSize }, middle, ?_,
        ⟨hready.1, le_rfl⟩, ?_⟩
      · simp only [Prog.eval_bind, heval, hexact, if_true, Prog.pure_eq_ret,
          Prog.eval_ret]
      · refine ReadCall.served hfetch ?_ ?_
        · rw [List.length_append]
          omega
        · rw [hspent, List.append_nil]
    · obtain ⟨⟨outcome, stop⟩, hnext⟩ : ∃ r, source.next middle = r :=
        ⟨_, rfl⟩
      have hblock : (readBlock part).eval source.handler middle =
          (outcome, stop) := hnext
      cases outcome with
      | none =>
          refine ⟨none, { ctx with consumed := part.eraseSize }, stop, ?_,
            ⟨hready.1, le_rfl⟩, ?_⟩
          · simp only [Prog.eval_bind, heval, hexact, if_false, hblock,
              Prog.pure_eq_ret, Prog.eval_ret]
          · refine ReadCall.broke
              (hfetch.append (Source.Fetches.single hnext)) ?_ hspent
            rw [hneed, hcount, Nat.lt_iff_add_one_le,
              Nat.le_div_iff_mul_le hsize, Nat.add_mul, Nat.one_mul,
              Nat.mul_comm]
            omega
      | some buffer =>
          have hfills := Source.next_length hnext
          refine ⟨some (ctx.unread ++ blocks.flatten ++
            buffer.take (left % part.eraseSize)),
            ⟨buffer, left % part.eraseSize⟩, stop, ?_,
            ⟨hfills, hmod.le⟩, ?_⟩
          · simp only [Prog.eval_bind, heval, hexact, if_false, hblock,
              Prog.pure_eq_ret, Prog.eval_ret]
          · have hall := hfetch.append (Source.Fetches.single hnext)
            rw [← List.map_singleton, ← List.map_append] at hall
            refine ReadCall.served hall ?_ ?_
            · rw [List.length_append, List.length_append,
                List.length_take_of_le (by omega)]
              omega
            · have hlast : buffer.take (left % part.eraseSize) ++
                  ReadContext.unread ⟨buffer, left % part.eraseSize⟩ =
                  buffer := List.take_append_drop _ _
              rw [List.append_assoc, hlast, List.flatten_append,
                List.flatten_singleton, List.append_assoc]
  · refine ⟨none, { ctx with consumed := part.eraseSize }, middle, ?_,
      ⟨hready.1, le_rfl⟩, ?_⟩
    · simp only [Prog.eval_bind, heval, Prog.pure_eq_ret, Prog.eval_ret]
    · exact ReadCall.broke hfetch (hcount.trans_le hdirect) hspent

/-- A call that is small enough hands out the bytes that come next, or meets
a failure. -/
theorem eval_mtdReadData {len : Nat} {ctx : ReadContext} (state : S)
    (hready : ctx.Ready part) (hsmall : len < 2 ^ 31) :
    ∃ result ctx' state', (mtdReadData part ctx len).eval source.handler
        state = ((result, ctx'), state') ∧ ctx'.Ready part ∧
      ReadCall source len ctx state result ctx' state' := by
  rw [mtdReadData, if_pos hsmall]
  by_cases hroom : len ≤ ctx.unread.length
  · exact eval_readLoop_buffered state hready hroom
  · obtain ⟨left, rfl⟩ : ∃ left, len = ctx.unread.length + left :=
      ⟨len - ctx.unread.length, by omega⟩
    obtain ⟨fuel, hfuel⟩ : ∃ fuel,
        ctx.unread.length + left + 1 = fuel + 2 :=
      ⟨ctx.unread.length + left - 1, by omega⟩
    rw [hfuel]
    exact eval_readLoop_beyond state hready (by omega)

end OneCall

section Calls

/-- A call drops nothing: it asks for less than 2 GiB, and `read_block` yields
the blocks it needs or fails at once, with the buffer used up. -/
def Lossless (ctx : ReadContext) (state : S) (len : Nat) : Prop :=
  len < 2 ^ 31 ∧
    ((∃ (blocks : List Bytes) (state' : S),
        blocks.length = blocksFor part ctx len ∧
        source.Fetches state (blocks.map some) state') ∨
      ctx.unread = [] ∧ (source.next state).1 = none)

/-- Every call of a session is lossless where it is made. -/
def AllLossless : ReadContext → S → List Nat → Prop
  | _, _, [] => True
  | ctx, state, len :: lens =>
      Lossless source ctx state len ∧
        let after := (mtdReadData part ctx len).eval source.handler state
        AllLossless after.1.2 after.2 lens

/-- The bytes of all blocks that `read_block` yielded. -/
def yielded (outcomes : List (Option Bytes)) : Bytes :=
  (outcomes.filterMap id).flatten

theorem yielded_append (first second : List (Option Bytes)) :
    yielded (first ++ second) = yielded first ++ yielded second := by
  rw [yielded, List.filterMap_append, List.flatten_append, yielded, yielded]

theorem yielded_map_some (blocks : List Bytes) :
    yielded (blocks.map some) = blocks.flatten := by
  rw [yielded, List.filterMap_map]
  simp

variable {source}

/-- What a lossless call takes, it hands out or keeps. -/
theorem ReadCall.lossless {len : Nat} {ctx ctx' : ReadContext}
    {state state' : S} {result : Option Bytes}
    (hcall : ReadCall source len ctx state result ctx' state')
    (hlossless : Lossless source ctx state len) :
    ∃ outcomes, source.Fetches state outcomes state' ∧
      yielded [result] ++ ctx'.unread = ctx.unread ++ yielded outcomes := by
  cases hcall with
  | served hfetch hlength hdata =>
      refine ⟨_, hfetch, ?_⟩
      rw [yielded_map_some, ← hdata]
      simp [yielded]
  | @broke blocks _ _ hfetch hfew hdropped =>
      refine ⟨_, hfetch, ?_⟩
      rcases hlossless.2 with ⟨needed, stop, hneeded, henough⟩ |
        ⟨hempty, hnone⟩
      · -- the blocks were there
        exfalso
        have hle : (blocks.map some ++ [none]).length ≤
            (needed.map some).length := by
          rw [List.length_append, List.length_map, List.length_map, hneeded]
          exact hfew
        have hmem := (hfetch.determined henough hle).subset
          (List.mem_append_right _ List.mem_cons_self)
        simp at hmem
      · cases blocks with
        | nil =>
            rw [hempty, hdropped]
            rfl
        | cons block blocks =>
            exfalso
            cases hfetch with
            | cons hnext _ =>
                rw [hnext] at hnone
                cases hnone

/-- Lossless calls hand out the blocks from the start. -/
theorem eval_readCalls {lens : List Nat} {ctx : ReadContext} {state : S}
    (hready : ctx.Ready part) (hall : AllLossless source ctx state lens) :
    ∃ outcomes, source.Fetches state outcomes
        ((readCalls part ctx lens).eval source.handler state).2 ∧
      ((readCalls part ctx lens).eval source.handler state).1.2.Ready part ∧
      yielded ((readCalls part ctx lens).eval source.handler state).1.1 ++
          ((readCalls part ctx lens).eval source.handler state).1.2.unread =
        ctx.unread ++ yielded outcomes := by
  induction lens generalizing ctx state with
  | nil =>
      refine ⟨[], Source.Fetches.nil, hready, ?_⟩
      simp [readCalls, yielded]
  | cons len lens ih =>
      obtain ⟨hlossless, hrest⟩ := hall
      obtain ⟨result, ctx', state', heval, hready', hcall⟩ :=
        eval_mtdReadData state hready hlossless.1
      obtain ⟨first, hfirst, hkept⟩ := hcall.lossless hlossless
      rw [heval] at hrest
      obtain ⟨second, hsecond, hready'', hkept'⟩ := ih hready' hrest
      simp only [readCalls, Prog.eval_bind, heval, Prog.pure_eq_ret,
        Prog.eval_ret]
      refine ⟨first ++ second, hfirst.append hsecond, hready'', ?_⟩
      rw [← List.singleton_append, yielded_append, List.append_assoc, hkept',
        ← List.append_assoc, hkept, yielded_append, List.append_assoc]

/-- Each call behind lossless calls returns what was asked for, in the order
in which `read_block` yielded it, or it fails because `read_block` did. -/
theorem readCalls_pieces (source : Source part S) (state : S)
    (lens : List Nat) (len : Nat)
    (hall : AllLossless source
      ⟨List.replicate part.eraseSize 0, part.eraseSize⟩ state lens)
    (hsmall : len < 2 ^ 31) :
    let before := (readCalls part
      ⟨List.replicate part.eraseSize 0, part.eraseSize⟩ lens).eval
        source.handler state
    let after := (mtdReadData part before.1.2 len).eval source.handler
      before.2
    ∃ earlier now, source.Fetches state earlier before.2 ∧
      source.Fetches before.2 now after.2 ∧
      (∀ data, after.1.1 = some data → data.length = len ∧
        yielded before.1.1 ++ data ++ after.1.2.unread =
          yielded (earlier ++ now)) ∧
      (after.1.1 = none → now.getLast? = some none) := by
  intro before after
  have hfresh : ReadContext.Ready part
      ⟨List.replicate part.eraseSize 0, part.eraseSize⟩ :=
    ⟨List.length_replicate, le_rfl⟩
  obtain ⟨earlier, hearlier, hready, hkept⟩ := eval_readCalls hfresh hall
  have hnothing : ReadContext.unread
      ⟨List.replicate part.eraseSize 0, part.eraseSize⟩ = [] := by
    rw [ReadContext.unread, List.drop_of_length_le
      (le_of_eq List.length_replicate)]
  rw [hnothing, List.nil_append] at hkept
  obtain ⟨result, ctx', state', heval, -, hcall⟩ :=
    eval_mtdReadData before.2 hready hsmall
  have hafter : after = ((result, ctx'), state') := heval
  rw [hafter]
  cases hcall with
  | @served data blocks _ _ hfetch hlength hdata =>
      refine ⟨earlier, _, hearlier, hfetch, ?_, ?_⟩
      · intro data' hdata'
        cases hdata'
        refine ⟨hlength, ?_⟩
        rw [List.append_assoc, hdata, ← List.append_assoc, hkept,
          yielded_append, yielded_map_some]
      · intro hnone
        cases hnone
  | broke hfetch hfew hdropped =>
      refine ⟨earlier, _, hearlier, hfetch, ?_, ?_⟩
      · intro data hdata
        cases hdata
      · intro _
        rw [List.getLast?_concat]

end Calls

namespace MtdReadChunksWitness

def twoBlocks : Partition := ⟨4, 2, Nat.two_pos⟩

/-- Flash without faults, where one query of the statistics fails. -/
def flaky (fault : Nat) : Source twoBlocks (Device × Nat) where
  handler c state :=
    match c with
    | .eccGetStats =>
        (if state.2 = fault then none else some state.1.eccFailed,
          (state.1, state.2 + 1))
    | c =>
        let answer := (Flash.faultFree twoBlocks).handler c state.1
        (answer.1, (answer.2, state.2))
  read_length := by
    intro state data hread
    have hplain : ((Flash.faultFree twoBlocks).read state.1.filePos
        (state.1.block state.1.filePos)).1 = some data := hread
    exact (Flash.faultFree twoBlocks).read_length hplain

/-- The bytes 1 to 4. -/
def start : Device × Nat :=
  (⟨fun pos => if pos = 0 then ⟨[1, 2], 0⟩ else ⟨[3, 4], 0⟩, 0, 0⟩, 0)

def fresh : ReadContext := ⟨[0, 0], 2⟩

theorem lossless_one : AllLossless (flaky 9) fresh start [1] := by
  have hfetch : (flaky 9).Fetches start ([[1, 2]].map some)
      ((flaky 9).next start).2 :=
    Source.Fetches.step (by decide +kernel) Source.Fetches.nil
  exact ⟨⟨by decide, Or.inl ⟨[[1, 2]], _, by decide, hfetch⟩⟩, trivial⟩

/-- The second call takes a byte from the buffer and one from the next
block. -/
theorem two_pieces :
    ∃ earlier now, (flaky 9).Fetches start earlier
        ((readCalls twoBlocks fresh [1]).eval (flaky 9).handler start).2 ∧
      yielded (earlier ++ now) = [1, 2, 3, 4] := by
  obtain ⟨earlier, now, hearlier, -, hserved, -⟩ :=
    readCalls_pieces (flaky 9) start [1] 2 lossless_one (by decide)
  obtain ⟨-, hpieces⟩ := hserved [2, 3] (by decide +kernel)
  refine ⟨earlier, now, hearlier, ?_⟩
  rw [← hpieces]
  decide +kernel

theorem flaky_outcomes : ∃ stop,
    (flaky 2).Fetches start [some [1, 2], none, some [3, 4]] stop :=
  ⟨_, Source.Fetches.step (by decide +kernel)
    (Source.Fetches.step (by decide +kernel)
      (Source.Fetches.step (by decide +kernel) Source.Fetches.nil))⟩

/-- The second of three calls fails and takes the byte 2 with it; and a
request of 2 GiB returns nothing. -/
theorem byte_lost :
    ((readCalls twoBlocks fresh [1, 2, 1]).eval (flaky 2).handler
        start).1.1 = [some [1], none, some [3]] ∧
      (∃ stop, (flaky 2).Fetches start [some [1, 2], none, some [3, 4]]
        stop) ∧
      ¬ yielded [some [1], none, some [3]] <+:
        yielded [some [1, 2], none, some [3, 4]] ∧
      ((mtdReadData twoBlocks fresh (2 ^ 31)).eval (flaky 9).handler
        start).1.1 = some [] := by
  exact ⟨by decide +kernel, flaky_outcomes, by decide, by decide +kernel⟩

end MtdReadChunksWitness

end Mtd

end MetaOS
