import XynokConcurrency.Lib.Machine
import XynokConcurrency.Utils.QueueBatching

/-!
# The single-producer multiple-consumer ring as a step program

The public ring, with its operations cut at every access to shared memory: one load,
one store, one compare-exchange or one slot access is one step.  The consumers share a
word that packs stolen over blocked; the producer alone moves the tail, by a plain load
and a plain store.

Source: {lit}`collection/ring_buffer/spmc_fifo/spmc_ring_buffer_fifo.rs`.

Main definitions:

- Structure {lit}`SpmcRingBufferFifo`: the shared memory.
- Inductive type {lit}`Spmc.Op`: every program point of {lit}`push`,
  {lit}`push_batch`, {lit}`pop`, {lit}`pop_batch`, {lit}`pop_batch_to` and {lit}`len`.
- Definition {lit}`Spmc.ringMachine`: any number of threads calling them.
- Definition {lit}`Spmc.Disciplined`: the steps the ring is made for.
-/

namespace XynokConcurrency

/-! ## Shared memory -/

/-- The ring: the word that packs stolen over blocked, the tail, and the cells. -/
structure SpmcRingBufferFifo (α : Type) where
  head : UInt64
  tail : UInt32
  buffer : FixedRingBuffer α

namespace SpmcRingBufferFifo

variable {α : Type}

/-- An empty ring whose three cursors start at a given value;
{lit}`SpmcRingBufferFifo::new` starts them at zero. -/
def startingAt (cursor : UInt32) (capacity : Nat) (h : acceptsCapacity capacity) :
    SpmcRingBufferFifo α where
  head := pack cursor cursor
  tail := cursor
  buffer := FixedRingBuffer.new capacity h

/-- {lit}`SpmcRingBufferFifo::new`. -/
def new (capacity : Nat) (h : acceptsCapacity capacity) : SpmcRingBufferFifo α :=
  startingAt 0 capacity h

/-- Cells visited by {lit}`Drop for SpmcRingBufferFifo`, in order. -/
def dropCells (q : SpmcRingBufferFifo α) : List (Option α) :=
  let (_, real) := unpack q.head
  (List.range (q.tail - real).toNat).map fun offset =>
    q.buffer.cellAt (real + UInt32.ofNat offset)

end SpmcRingBufferFifo

namespace Spmc

variable {τ α : Type}

/-! ## Calls and results -/

/-- A call on the ring. -/
inductive Call (α : Type)
  | push (val : α)
  | pushBatch (max : Nat) (vals : List α)
  | pop
  | popBatch (max : Nat) (dst : List α)
  | popBatchTo (max : Nat) (writeStartCursor : UInt32)
  | len

/-- What a call returns, with what it leaves of a source and makes of a destination. -/
inductive Res (α : Type)
  | pushed
  | full (val : α)
  | moved (n : Nat) (rest : List α)
  | popped (val : Option α)
  | taken (n : Nat) (dst : Batching.Sink α)
  | length (n : Nat)
deriving DecidableEq

/-- What a consumer call has taken out so far. -/
inductive Taking (α : Type)
  | one (val : Option α)
  | batch (dst : Batching.Sink α)

/-- One element is taken out. -/
def Taking.put (offset : Nat) (val : α) : Taking α → Taking α
  | .one _ => .one (some val)
  | .batch dst => .batch (dst.put offset val)

/-- What a consumer call returns that got {lit}`n` elements. -/
def Taking.result (n : Nat) : Taking α → Res α
  | .one val => .popped val
  | .batch dst => .taken n dst

/-- What a call does once {lit}`cursor_data` has returned. -/
inductive Next (α : Type)
  | push (val : α)
  | pushBatch (max : Nat) (vals : List α)
  | claim (amount : Nat) (k : Taking α)
  | len

/-- Program points of the operations, each with its local variables. -/
inductive Op (α : Type)
  | idle
  /-- {lit}`cursor_data`: about to load the head, then the tail. -/
  | headLoad (k : Next α)
  | tailLoad (k : Next α) (stolen blocked : UInt32)
  /-- The writing loop of {lit}`push_batch`, of which {lit}`push` is one round. -/
  | pushWrite (c : CursorData) (offset : Nat) (val : α) (todo : List α) (r : Res α)
  | tailStore (c : CursorData) (amount : Nat) (r : Res α)
  /-- {lit}`try_cas_for_pop_batch`: about to try its CAS, or to load the tail after a
  failed one that found {lit}`found`. -/
  | claimCas (amount : Nat) (k : Taking α) (c : CursorData)
  | claimTail (amount : Nat) (k : Taking α) (c : CursorData) (found : UInt64)
  /-- The reading loop of {lit}`pop_batch` and {lit}`pop_batch_to`, of which {lit}`pop`
  is one round. -/
  | take (amount offset : Nat) (start : UInt32) (k : Taking α)
  /-- {lit}`publish_stolen`: about to load the head, then to try its CAS. -/
  | publishLoad (amount : Nat) (start : UInt32) (k : Taking α)
  | publishCas (amount : Nat) (start : UInt32) (k : Taking α) (current : UInt64)
  | done (r : Res α)

/-! ## The operations -/

/-- What a call does with the snapshot it starts with. -/
def Call.next : Call α → Next α
  | .push val => .push val
  | .pushBatch max vals => .pushBatch max vals
  | .pop => .claim 1 (.one none)
  | .popBatch max dst => .claim max (.batch (.vec dst))
  | .popBatchTo max cursor => .claim max (.batch (.buffer cursor []))
  | .len => .len

/-- Head of the writing loop. -/
def Op.pushLoop (c : CursorData) (offset : Nat) (r : Res α) : List α → Op α
  | [] => .tailStore c offset r
  | val :: todo => .pushWrite c offset val todo r

/-- Head of the loop of {lit}`try_cas_for_pop_batch`. -/
def Op.claimLoop (amount : Nat) (k : Taking α) (c : CursorData) : Op α :=
  if c.filledSlots < 1 then .done (k.result 0) else .claimCas (min amount c.filledSlots) k c

/-- Head of the reading loop. -/
def Op.takeLoop (amount offset : Nat) (start : UInt32) (k : Taking α) : Op α :=
  if offset < amount then .take amount offset start k else .publishLoad amount start k

/-- Continue a call with the snapshot it asked for. -/
def Op.afterCursorData (c : CursorData) : Next α → Op α
  | .push val => if c.emptySlots < 1 then .done (.full val) else pushLoop c 0 .pushed [val]
  | .pushBatch max vals =>
      let takeAmount := min (min c.emptySlots max) vals.length
      if takeAmount < 1 then .done (.moved 0 vals)
      else pushLoop c 0 (.moved takeAmount (vals.drop takeAmount)) (vals.take takeAmount)
  | .claim amount k => claimLoop amount k c
  | .len => .done (.length c.filledSlots)

/-- The ring, and the number of elements pushed so far, which no operation reads. -/
structure Mem (α : Type) where
  ring : SpmcRingBufferFifo α
  pushed : Nat

/-- Where a thread stands, and how many elements had been pushed when its call began. -/
structure Thread (α : Type) where
  op : Op α
  since : Nat

/-- The CAS word of a claim. -/
def claimed (c : CursorData) (amount : Nat) : UInt64 :=
  pack c.stolen (c.blocked + UInt32.ofNat amount)

/-- The CAS word of a publication. -/
def published (current : UInt64) (amount : Nat) : UInt64 :=
  pack ((unpack current).1 + UInt32.ofNat amount) (unpack current).2

/-- One step of an operation other than a store of the tail and a successful CAS.  It is
disabled where the code would have undefined behaviour: taking from a cell that holds no
element.  A weak CAS may fail spuriously, and then it only reads. -/
def tick (spurious : Bool) (q : SpmcRingBufferFifo α) :
    Op α → Option (SpmcRingBufferFifo α × Op α)
  | .headLoad k => some (q, .tailLoad k (unpack q.head).1 (unpack q.head).2)
  | .tailLoad k stolen blocked =>
      some (q, .afterCursorData ⟨stolen, blocked, q.tail, q.buffer.mask + 1, q.buffer.mask⟩ k)
  | .pushWrite c offset val todo r =>
      some ({ q with buffer := q.buffer.write (c.tail + UInt32.ofNat offset) val },
        .pushLoop c (offset + 1) r todo)
  | .claimCas amount k c =>
      if spurious = true ∨ q.head ≠ pack c.stolen c.blocked then
        some (q, .claimTail amount k c q.head)
      else none
  | .claimTail amount k c found =>
      some (q, .claimLoop amount k
        { c with stolen := (unpack found).1, blocked := (unpack found).2, tail := q.tail })
  | .take amount offset start k =>
      match q.buffer.cellAt (start + UInt32.ofNat offset) with
      | some val =>
          some ({ q with buffer := q.buffer.clearAt (start + UInt32.ofNat offset) },
            .takeLoop amount (offset + 1) start (k.put offset val))
      | none => none
  | .publishLoad amount start k =>
      some (q, if (unpack q.head).1 ≠ start then .publishLoad amount start k
        else .publishCas amount start k q.head)
  | .publishCas amount start k current =>
      if spurious = true ∨ q.head ≠ current then some (q, .publishLoad amount start k) else none
  | .idle | .tailStore _ _ _ | .done _ => none

/-- What a thread does next. -/
inductive Choice (α : Type)
  | call (c : Call α)
  | tick (spurious : Bool)
  /-- The CAS of {lit}`try_cas_for_pop_batch` succeeds. -/
  | claim
  /-- The CAS of {lit}`publish_stolen` succeeds. -/
  | publish
  /-- The producer stores the tail. -/
  | commit
  | ret (r : Res α)

/-- One step of a thread. -/
def step [DecidableEq α] (_ : τ) (c : Choice α) (m : Mem α) (th : Thread α) :
    Option (Mem α × Thread α) :=
  match c, th.op with
  | .call c, .idle => some (m, ⟨.headLoad c.next, m.pushed⟩)
  | .tick spurious, o =>
      match tick spurious m.ring o with
      | some (q, o') => some ({ m with ring := q }, { th with op := o' })
      | none => none
  | .claim, .claimCas amount k c =>
      if m.ring.head = pack c.stolen c.blocked then
        some ({ m with ring := { m.ring with head := claimed c amount } },
          { th with op := .takeLoop amount 0 c.blocked k })
      else none
  | .publish, .publishCas amount _ k current =>
      if m.ring.head = current then
        some ({ m with ring := { m.ring with head := published current amount } },
          { th with op := .done (k.result amount) })
      else none
  | .commit, .tailStore c amount r =>
      some (⟨{ m.ring with tail := c.tail + UInt32.ofNat amount }, m.pushed + amount⟩,
        { th with op := .done r })
  | .ret r, .done r' => if r = r' then some (m, { th with op := .idle }) else none
  | _, _ => none

/-- Any number of threads calling one ring, whose cursors start anywhere. -/
def ringMachine [DecidableEq τ] [DecidableEq α] (capacity : Nat) (h : acceptsCapacity capacity) :
    Machine (Machine.Shared τ (Mem α) (Thread α)) (τ × Choice α) :=
  Machine.ofThreads
    (fun s => ∃ cursor, s = ⟨⟨.startingAt cursor capacity h, 0⟩, fun _ => ⟨.idle, 0⟩⟩) step

/-! ## The intended use -/

/-- The program point belongs to a consumer call. -/
def Op.consuming : Op α → Bool
  | .headLoad (.claim _ _) | .tailLoad (.claim _ _) _ _ | .claimCas _ _ _ | .claimTail _ _ _ _
  | .take _ _ _ _ | .publishLoad _ _ _ | .publishCas _ _ _ _ => true
  | _ => false

/-- One thread produces, and amounts are positive. -/
def Call.Allowed (producer t : τ) : Call α → Prop
  | .push _ | .pushBatch _ _ => t = producer
  | .popBatch max _ | .popBatchTo max _ => 0 < max
  | .pop | .len => True

/-- The call of a step is allowed. -/
def Choice.Allowed (producer t : τ) : Choice α → Prop
  | .call c => c.Allowed producer t
  | _ => True

/-- The steps the ring is made for: there is one producer, amounts are positive, and
fewer than {lit}`2 ^ 31` elements are pushed during a consumer call. -/
def Disciplined (producer : τ) (s : Machine.Shared τ (Mem α) (Thread α)) (l : τ × Choice α) :
    Prop :=
  ((s.threads l.1).op.consuming = true → s.mem.pushed - (s.threads l.1).since < 2 ^ 31) ∧
    l.2.Allowed producer l.1

instance [DecidableEq τ] (producer t : τ) (c : Call α) : Decidable (c.Allowed producer t) := by
  cases c <;> unfold Call.Allowed <;> infer_instance

instance [DecidableEq τ] (producer t : τ) (c : Choice α) : Decidable (c.Allowed producer t) := by
  cases c <;> unfold Choice.Allowed <;> infer_instance

instance [DecidableEq τ] (producer : τ) (s : Machine.Shared τ (Mem α) (Thread α))
    (l : τ × Choice α) : Decidable (Disciplined producer s l) :=
  inferInstanceAs (Decidable (_ ∧ _))

/-- The ring in its intended use. -/
def spmcMachine [DecidableEq τ] [DecidableEq α] (producer : τ) (capacity : Nat)
    (h : acceptsCapacity capacity) :
    Machine (Machine.Shared τ (Mem α) (Thread α)) (τ × Choice α) :=
  (ringMachine capacity h).restrict (Disciplined producer)

end Spmc

end XynokConcurrency
