import XynokConcurrency.Lib.Machine
import XynokConcurrency.Utils.Cursors

/-!
# The worker deque and the batching queue as step programs

The two shared containers of the pool, and their operations cut at every access
to shared memory: one atomic operation, one lock acquisition or release, or one
slot access is one step.  An operation is a program counter with its local
variables; {lit}`Op.instr` says which access it makes next and where it goes with
the answer, and {lit}`QInstr.exec` says what the access does to the memory.

Source: {lit}`thread_pool/worker_queue.rs`, {lit}`utils/queue_batching.rs`.

Main definitions:

- Structures {lit}`WorkerQueue`, {lit}`QueueBatching` and {lit}`Queues`: the
  shared memory.
- Inductive type {lit}`Op`: every program point of {lit}`push`,
  {lit}`push_batch_by_taking_from_queue`, {lit}`pop`, {lit}`try_steal_batch_to`,
  {lit}`len` on a deque and {lit}`push`, {lit}`pop`, {lit}`try_get` with
  {lit}`pop` on a batching queue.
- Definition {lit}`queueMachine`: any number of threads calling them, where the
  owner side of a deque is left to its owner.
-/

namespace XynokConcurrency

/-! ## Shared memory -/

/-- A worker's deque: the ring, the word that packs tail over blocked, and the
stolen cursor in an atomic of its own. -/
structure WorkerQueue (α : Type) where
  buffer : FixedRingBuffer α
  anchor : UInt64
  stolen : UInt32

namespace WorkerQueue

variable {α : Type}

/-- An empty deque whose three cursors start at a given value;
{lit}`WorkerQueue::new` starts them at zero. -/
def startingAt (cursor : UInt32) (capacity : Nat) (h : acceptsCapacity capacity) :
    WorkerQueue α where
  buffer := FixedRingBuffer.new capacity h
  anchor := pack cursor cursor
  stolen := cursor

/-- {lit}`WorkerQueue::new`. -/
def new (capacity : Nat) (h : acceptsCapacity capacity) : WorkerQueue α :=
  startingAt 0 capacity h

/-- Cells visited by {lit}`Drop for WorkerQueue`, in order. -/
def dropCells (q : WorkerQueue α) : List (Option α) :=
  let (tail, inStealing) := unpack q.anchor
  (List.range (tail - inStealing).toNat).map fun offset =>
    q.buffer.cellAt (inStealing + UInt32.ofNat offset)

/-- The elements nobody has claimed, oldest first. -/
def unclaimed (q : WorkerQueue α) : List α :=
  q.dropCells.filterMap id

end WorkerQueue

/-- A queue behind a spin lock with its length cached outside of it.  The lock
word also names the thread that set it, which no operation reads. -/
structure QueueBatching (τ α : Type) where
  elements : List α
  locked : Option τ
  len : Nat

/-- {lit}`QueueBatching::from_queue`. -/
def QueueBatching.fromQueue {τ α : Type} (queue : List α) : QueueBatching τ α where
  elements := queue
  locked := none
  len := queue.length

/-- {lit}`QueueBatching::new`. -/
def QueueBatching.new {τ α : Type} : QueueBatching τ α :=
  .fromQueue []

/-- The deques and batching queues a group of threads shares. -/
structure Queues (δ κ τ α : Type) where
  deque : δ → WorkerQueue α
  queue : κ → QueueBatching τ α

section Programs

variable {δ κ τ α β : Type}

/-! ## One access to shared memory -/

/-- One access to the shared queues, with what to do with its answer. -/
inductive QInstr (δ κ α β : Type)
  /-- {lit}`anchor.load_unpack`. -/
  | anchorLoad (d : δ) (k : UInt32 → UInt32 → β)
  /-- {lit}`stolen.load`, together with the ring's immutable mask. -/
  | stolenLoad (d : δ) (k : UInt32 → UInt32 → β)
  /-- {lit}`buffer.write`. -/
  | slotWrite (d : δ) (cursor : UInt32) (val : α) (k : β)
  /-- {lit}`buffer.take_at`. -/
  | slotTake (d : δ) (cursor : UInt32) (k : α → β)
  /-- {lit}`anchor.fetch_add((amount as u64) << 32)`. -/
  | anchorAdd (d : δ) (amount : Nat) (k : β)
  /-- {lit}`anchor.compare_exchange`. -/
  | anchorCas (d : δ) (current next : UInt64) (ok : β) (err : UInt64 → β)
  /-- {lit}`stolen.compare_exchange`. -/
  | stolenCas (d : δ) (current next : UInt32) (ok err : β)
  /-- {lit}`len.load`. -/
  | lenLoad (q : κ) (k : Nat → β)
  /-- The successful round of {lit}`get`; the thread spins while it is disabled. -/
  | lock (q : κ) (k : β)
  /-- {lit}`try_lock`. -/
  | tryLock (q : κ) (k : Bool → β)
  /-- {lit}`elements.len()` through the guard. -/
  | guardLen (q : κ) (k : Nat → β)
  /-- {lit}`elements.push_back` through the guard. -/
  | pushBack (q : κ) (val : α) (k : β)
  /-- {lit}`elements.pop_front` through the guard. -/
  | popFront (q : κ) (k : Option α → β)
  /-- One element of {lit}`elements.drain(..)` through the guard. -/
  | drainFront (q : κ) (k : α → β)
  /-- {lit}`elements.truncate` through the guard, handing out what it drops. -/
  | truncate (q : κ) (keep : Nat) (k : List α → β)
  /-- First half of {lit}`release`: the length is recorded. -/
  | storeLen (q : κ) (k : β)
  /-- Second half of {lit}`release`: the lock is given back. -/
  | unlock (q : κ) (k : β)

/-- Continue an access differently. -/
def QInstr.map {γ : Type} (f : β → γ) : QInstr δ κ α β → QInstr δ κ α γ
  | .anchorLoad d k => .anchorLoad d fun tail blocked => f (k tail blocked)
  | .stolenLoad d k => .stolenLoad d fun stolen mask => f (k stolen mask)
  | .slotWrite d cursor val k => .slotWrite d cursor val (f k)
  | .slotTake d cursor k => .slotTake d cursor fun v => f (k v)
  | .anchorAdd d amount k => .anchorAdd d amount (f k)
  | .anchorCas d current next ok err => .anchorCas d current next (f ok) fun w => f (err w)
  | .stolenCas d current next ok err => .stolenCas d current next (f ok) (f err)
  | .lenLoad q k => .lenLoad q fun n => f (k n)
  | .lock q k => .lock q (f k)
  | .tryLock q k => .tryLock q fun b => f (k b)
  | .guardLen q k => .guardLen q fun n => f (k n)
  | .pushBack q val k => .pushBack q val (f k)
  | .popFront q k => .popFront q fun v => f (k v)
  | .drainFront q k => .drainFront q fun v => f (k v)
  | .truncate q keep k => .truncate q keep fun vs => f (k vs)
  | .storeLen q k => .storeLen q (f k)
  | .unlock q k => .unlock q (f k)

variable [DecidableEq δ] [DecidableEq κ]

/-- Replace one deque. -/
def Queues.setDeque (m : Queues δ κ τ α) (d : δ) (q : WorkerQueue α) : Queues δ κ τ α :=
  { m with deque := Function.update m.deque d q }

/-- Replace one batching queue. -/
def Queues.setQueue (m : Queues δ κ τ α) (q : κ) (b : QueueBatching τ α) : Queues δ κ τ α :=
  { m with queue := Function.update m.queue q b }

omit [DecidableEq κ] in
@[simp] theorem Queues.setDeque_queue (m : Queues δ κ τ α) (d : δ) (q : WorkerQueue α) :
    (m.setDeque d q).queue = m.queue := rfl

omit [DecidableEq δ] in
@[simp] theorem Queues.setQueue_deque (m : Queues δ κ τ α) (q : κ) (b : QueueBatching τ α) :
    (m.setQueue q b).deque = m.deque := rfl

/-- Effect of one access by thread {lit}`t`.  It is disabled while the thread
spins on a taken lock, and where the code would have undefined behaviour: taking
from a cell that holds no element. -/
def QInstr.exec (t : τ) (m : Queues δ κ τ α) : QInstr δ κ α β → Option (Queues δ κ τ α × β)
  | .anchorLoad d k =>
      let (tail, blocked) := unpack (m.deque d).anchor
      some (m, k tail blocked)
  | .stolenLoad d k => some (m, k (m.deque d).stolen (m.deque d).buffer.mask)
  | .slotWrite d cursor val k =>
      let q := m.deque d
      some (m.setDeque d { q with buffer := q.buffer.write cursor val }, k)
  | .slotTake d cursor k =>
      let q := m.deque d
      match q.buffer.cellAt cursor with
      | some v => some (m.setDeque d { q with buffer := q.buffer.clearAt cursor }, k v)
      | none => none
  | .anchorAdd d amount k =>
      let q := m.deque d
      some (m.setDeque d { q with anchor := q.anchor + (UInt64.ofNat amount <<< 32) }, k)
  | .anchorCas d current next ok err =>
      let q := m.deque d
      if q.anchor = current then some (m.setDeque d { q with anchor := next }, ok)
      else some (m, err q.anchor)
  | .stolenCas d current next ok err =>
      let q := m.deque d
      if q.stolen = current then some (m.setDeque d { q with stolen := next }, ok)
      else some (m, err)
  | .lenLoad q k => some (m, k (m.queue q).len)
  | .lock q k =>
      let b := m.queue q
      match b.locked with
      | none => some (m.setQueue q { b with locked := some t }, k)
      | some _ => none
  | .tryLock q k =>
      let b := m.queue q
      match b.locked with
      | none => some (m.setQueue q { b with locked := some t }, k true)
      | some _ => some (m, k false)
  | .guardLen q k => some (m, k (m.queue q).elements.length)
  | .pushBack q val k =>
      let b := m.queue q
      some (m.setQueue q { b with elements := b.elements ++ [val] }, k)
  | .popFront q k =>
      let b := m.queue q
      some (m.setQueue q { b with elements := b.elements.tail }, k b.elements.head?)
  | .drainFront q k =>
      let b := m.queue q
      match b.elements with
      | v :: rest => some (m.setQueue q { b with elements := rest }, k v)
      | [] => none
  | .truncate q keep k =>
      let b := m.queue q
      some (m.setQueue q { b with elements := b.elements.take keep }, k (b.elements.drop keep))
  | .storeLen q k =>
      let b := m.queue q
      some (m.setQueue q { b with len := b.elements.length }, k)
  | .unlock q k =>
      let b := m.queue q
      some (m.setQueue q { b with locked := none }, k)

/-- No access changes the size of a ring. -/
theorem QInstr.exec_mask {t : τ} {m m' : Queues δ κ τ α} {i : QInstr δ κ α β} {b : β}
    (hx : i.exec t m = some (m', b)) (d : δ) :
    (m'.deque d).buffer.mask = (m.deque d).buffer.mask := by
  have hset : ∀ e q, q.buffer.mask = (m.deque e).buffer.mask →
      ((m.setDeque e q).deque d).buffer.mask = (m.deque d).buffer.mask := by
    intro e q hq
    by_cases hd : d = e
    · subst hd
      simpa [Queues.setDeque] using hq
    · simp [Queues.setDeque, hd]
  cases i <;> simp only [QInstr.exec] at hx <;> (try split at hx) <;> cases hx <;>
    first | rfl | exact hset _ _ rfl

end Programs

/-! ## Operations -/

/-- Outcome of a steal. -/
inductive Steal
  | empty
  | busy
  | success (n : Nat)
deriving DecidableEq, Repr

/-- A call on the shared queues. -/
inductive QueueCall (δ κ α : Type)
  | push (d : δ) (val : α)
  | pushBatchByTakingFromQueue (d : δ) (max : Nat) (src : κ)
  | pop (d : δ)
  | trySteal (victim : δ) (max : Nat) (dst : δ)
  | len (d : δ)
  | queuePush (q : κ) (val : α)
  | queuePop (q : κ)
  | queueTryPop (q : κ)

/-- What a call returns. -/
inductive QueueRes (α : Type)
  | pushed
  | full (val : α)
  | moved (n : Nat)
  | popped (val : Option α)
  | stole (r : Steal)
  | length (n : Nat)
deriving DecidableEq

/-- What a call does once {lit}`cursor_data` has returned. -/
inductive Next (δ κ α : Type)
  | push (val : α)
  | refill (max : Nat) (src : κ)
  | pop
  /-- The snapshot is that of the thief's own deque. -/
  | stealDst (victim : δ) (max : Nat)
  /-- The snapshot is that of the victim. -/
  | stealVictim (dst : δ) (max : Nat) (dstCursors : CursorData)
  | len

/-- Program points of the queue operations, each with its local variables. -/
inductive Op (δ κ α : Type)
  | idle
  /-- {lit}`cursor_data`: about to load the anchor. -/
  | cursorAnchor (d : δ) (k : Next δ κ α)
  /-- {lit}`cursor_data`: about to load stolen. -/
  | cursorStolen (d : δ) (k : Next δ κ α) (tail blocked : UInt32)
  /-- {lit}`push`: about to write the slot, then to move the tail. -/
  | pushWrite (d : δ) (val : α) (c : CursorData)
  | pushAdd (d : δ) (c : CursorData)
  /-- {lit}`pop`: about to try its CAS, then to read the slot it won. -/
  | popCas (d : δ) (c : CursorData)
  | popTake (d : δ) (cursor : UInt32)
  /-- {lit}`push_batch_by_taking_from_queue`: about to read {lit}`src.len()`. -/
  | refillLen (d : δ) (max : Nat) (src : κ) (c : CursorData)
  /-- {lit}`drain_into_buffer`: the fast exit, the lock, the amount, the copying
  loop and the guard's release. -/
  | drainIsEmpty (d : δ) (src : κ) (take : Nat) (c : CursorData)
  | drainLock (d : δ) (src : κ) (take : Nat) (c : CursorData)
  | drainAmount (d : δ) (src : κ) (take : Nat) (c : CursorData)
  | drainFront (d : δ) (src : κ) (moved offset : Nat) (c : CursorData)
  | drainWrite (d : δ) (src : κ) (moved offset : Nat) (c : CursorData) (val : α)
  | drainStoreLen (d : δ) (src : κ) (moved : Nat) (c : CursorData)
  | drainUnlock (d : δ) (src : κ) (moved : Nat) (c : CursorData)
  /-- Back in the refill: about to move the tail. -/
  | refillAdd (d : δ) (moved : Nat) (c : CursorData)
  /-- {lit}`fifo_try_cas_for_pop_batch`: about to try its only CAS. -/
  | stealCas (victim dst : δ) (amount : Nat) (dc vc : CursorData)
  /-- The copying loop of {lit}`try_steal_batch_to`. -/
  | stealTake (victim dst : δ) (amount offset : Nat) (dc : CursorData) (start : UInt32)
  | stealWrite (victim dst : δ) (amount offset : Nat) (dc : CursorData) (start : UInt32) (val : α)
  /-- {lit}`consumer_publish_stolen`: about to load stolen, then to try its CAS. -/
  | publishLoad (victim dst : δ) (amount : Nat) (dc : CursorData) (start : UInt32)
  | publishCas (victim dst : δ) (amount : Nat) (dc : CursorData) (start : UInt32)
  /-- Back in the steal: about to move the thief's own tail. -/
  | stealAdd (dst : δ) (amount : Nat) (dc : CursorData)
  /-- {lit}`QueueBatching::push`. -/
  | queuePushLock (q : κ) (val : α)
  | queuePushBack (q : κ) (val : α)
  | queuePushStoreLen (q : κ)
  | queuePushUnlock (q : κ)
  /-- {lit}`QueueBatching::pop`; {lit}`try_get` followed by {lit}`pop` starts at
  its own lock attempt. -/
  | queuePopIsEmpty (q : κ)
  | queuePopLock (q : κ)
  | queueTryPopLock (q : κ)
  | queuePopFront (q : κ)
  | queuePopStoreLen (q : κ) (val : Option α)
  | queuePopUnlock (q : κ) (val : Option α)
  | done (r : QueueRes α)

namespace Op

variable {δ κ α : Type}

/-- First program point of a call. -/
def start : QueueCall δ κ α → Op δ κ α
  | .push d val => .cursorAnchor d (.push val)
  | .pushBatchByTakingFromQueue d max src => .cursorAnchor d (.refill max src)
  | .pop d => .cursorAnchor d .pop
  | .trySteal victim max dst => .cursorAnchor dst (.stealDst victim max)
  | .len d => .cursorAnchor d .len
  | .queuePush q val => .queuePushLock q val
  | .queuePop q => .queuePopIsEmpty q
  | .queueTryPop q => .queueTryPopLock q

/-- Head of the loop of {lit}`pop`. -/
def popLoop (d : δ) (c : CursorData) : Op δ κ α :=
  if c.filledSlots < 1 then .done (.popped none) else .popCas d c

/-- Head of the copying loop of {lit}`try_steal_batch_to`. -/
def stealLoop (victim dst : δ) (amount offset : Nat) (dc : CursorData) (start : UInt32) :
    Op δ κ α :=
  if offset < amount then .stealTake victim dst amount offset dc start
  else .publishLoad victim dst amount dc start

/-- Head of the copying loop of {lit}`drain_into_buffer`. -/
def drainLoop (d : δ) (src : κ) (moved offset : Nat) (c : CursorData) : Op δ κ α :=
  if offset < moved then .drainFront d src moved offset c
  else .drainStoreLen d src moved c

/-- Continue a call with the snapshot it asked for. -/
def afterCursorData (d : δ) (c : CursorData) : Next δ κ α → Op δ κ α
  | .push val => if c.emptySlots < 1 then .done (.full val) else .pushWrite d val c
  | .refill max src => .refillLen d max src c
  | .pop => popLoop d c
  | .stealDst victim max => .cursorAnchor victim (.stealVictim d max c)
  | .stealVictim dst max dc =>
      let takeAmount := min (min dc.emptySlots max) c.filledSlots
      if takeAmount < 1 then .done (.stole .empty)
      else
        -- `fifo_try_cas_for_pop_batch` bounds the amount by the same snapshot again
        .stealCas d dst (min takeAmount c.filledSlots) dc c
  | .len => .done (.length c.filledSlots)

/-- The access an operation makes next, if it has not ended.  A weak CAS may
fail spuriously, and then it only reads. -/
def instr (spurious : Bool) : Op δ κ α → Option (QInstr δ κ α (Op δ κ α))
  | .idle => none
  | .cursorAnchor d k =>
      some (.anchorLoad d fun tail blocked => .cursorStolen d k tail blocked)
  | .cursorStolen d k tail blocked =>
      some (.stolenLoad d fun stolen mask =>
        afterCursorData d ⟨stolen, blocked, tail, mask + 1, mask⟩ k)
  | .pushWrite d val c => some (.slotWrite d c.tail val (.pushAdd d c))
  | .pushAdd d _ => some (.anchorAdd d 1 (.done .pushed))
  | .popCas d c =>
      if spurious then
        some (.anchorLoad d fun tail blocked =>
          popLoop d { c with tail := tail, blocked := blocked })
      else
        some (.anchorCas d (pack c.tail c.blocked) (pack (c.tail - 1) c.blocked)
          (.popTake d (c.tail - 1)) fun w =>
            popLoop d { c with tail := (unpack w).1, blocked := (unpack w).2 })
  | .popTake d cursor => some (.slotTake d cursor fun v => .done (.popped (some v)))
  | .refillLen d max src c =>
      some (.lenLoad src fun n =>
        let takeAmount := min (min c.emptySlots max) n
        if takeAmount < 1 then .done (.moved 0) else .drainIsEmpty d src takeAmount c)
  | .drainIsEmpty d src take c =>
      some (.lenLoad src fun n => if n = 0 then .done (.moved 0) else .drainLock d src take c)
  | .drainLock d src take c => some (.lock src (.drainAmount d src take c))
  | .drainAmount d src take c =>
      some (.guardLen src fun n => drainLoop d src (min take n) 0 c)
  | .drainFront d src moved offset c =>
      some (.drainFront src fun v => .drainWrite d src moved offset c v)
  | .drainWrite d src moved offset c val =>
      some (.slotWrite d (c.tail + UInt32.ofNat offset) val (drainLoop d src moved (offset + 1) c))
  | .drainStoreLen d src moved c => some (.storeLen src (.drainUnlock d src moved c))
  | .drainUnlock d src moved c =>
      some (.unlock src (if moved < 1 then .done (.moved 0) else .refillAdd d moved c))
  | .refillAdd d moved _ => some (.anchorAdd d moved (.done (.moved moved)))
  | .stealCas victim dst amount dc vc =>
      some (.anchorCas victim (pack vc.tail vc.blocked)
        (pack vc.tail (vc.blocked + UInt32.ofNat amount))
        (stealLoop victim dst amount 0 dc vc.blocked) fun _ => .done (.stole .busy))
  | .stealTake victim dst amount offset dc start =>
      some (.slotTake victim (start + UInt32.ofNat offset) fun v =>
        .stealWrite victim dst amount offset dc start v)
  | .stealWrite victim dst amount offset dc start val =>
      some (.slotWrite dst (dc.tail + UInt32.ofNat offset) val
        (stealLoop victim dst amount (offset + 1) dc start))
  | .publishLoad victim dst amount dc start =>
      some (.stolenLoad victim fun stolen _ =>
        if stolen = start then .publishCas victim dst amount dc start
        else .publishLoad victim dst amount dc start)
  | .publishCas victim dst amount dc start =>
      if spurious then
        some (.stolenLoad victim fun _ _ => .publishLoad victim dst amount dc start)
      else
        some (.stolenCas victim start (start + UInt32.ofNat amount) (.stealAdd dst amount dc)
          (.publishLoad victim dst amount dc start))
  | .stealAdd dst amount _ => some (.anchorAdd dst amount (.done (.stole (.success amount))))
  | .queuePushLock q val => some (.lock q (.queuePushBack q val))
  | .queuePushBack q val => some (.pushBack q val (.queuePushStoreLen q))
  | .queuePushStoreLen q => some (.storeLen q (.queuePushUnlock q))
  | .queuePushUnlock q => some (.unlock q (.done .pushed))
  | .queuePopIsEmpty q =>
      some (.lenLoad q fun n => if n = 0 then .done (.popped none) else .queuePopLock q)
  | .queuePopLock q => some (.lock q (.queuePopFront q))
  | .queueTryPopLock q =>
      some (.tryLock q fun b => if b then .queuePopFront q else .done (.popped none))
  | .queuePopFront q => some (.popFront q fun v => .queuePopStoreLen q v)
  | .queuePopStoreLen q val => some (.storeLen q (.queuePopUnlock q val))
  | .queuePopUnlock q val => some (.unlock q (.done (.popped val)))
  | .done _ => none

end Op

/-! ## The machine of the shared queues -/

section Machine

variable {δ κ τ α : Type}

/-- Deque whose owner side a call uses. -/
def QueueCall.ownerSide : QueueCall δ κ α → Option δ
  | .push d _ => some d
  | .pushBatchByTakingFromQueue d _ _ => some d
  | .pop d => some d
  | .trySteal _ _ dst => some dst
  | _ => none

/-- A thread calls, takes one step of its call, or returns. -/
inductive QueueLabel (δ κ τ α : Type)
  | call (t : τ) (c : QueueCall δ κ α)
  | tick (t : τ) (spurious : Bool)
  | ret (t : τ) (r : QueueRes α)

variable [DecidableEq δ] [DecidableEq κ] [DecidableEq τ] [DecidableEq α]

/-- A call may start on an idle thread, and the owner side of a deque belongs to
one thread. -/
def callAllowed (owner : δ → τ) (t : τ) (o : Op δ κ α) (c : QueueCall δ κ α) : Bool :=
  match o, c.ownerSide with
  | .idle, some d => owner d = t
  | .idle, none => true
  | _, _ => false

/-- Any number of threads calling the shared queues, from empty deques whose
cursors start anywhere and batching queues with any content. -/
def queueMachine (owner : δ → τ) (capacity : δ → Nat)
    (hcap : ∀ d, acceptsCapacity (capacity d)) :
    Machine (Machine.Shared τ (Queues δ κ τ α) (Op δ κ α)) (QueueLabel δ κ τ α) where
  init s :=
    (∀ d, ∃ cursor, s.mem.deque d = .startingAt cursor (capacity d) (hcap d)) ∧
      (∀ q, ∃ content, s.mem.queue q = .fromQueue content) ∧ ∀ t, s.threads t = .idle
  step s
    | .call t c =>
        if callAllowed owner t (s.threads t) c then
          some { s with threads := Function.update s.threads t (.start c) }
        else none
    | .tick t spurious =>
        match (s.threads t).instr spurious with
        | some i =>
            match i.exec t s.mem with
            | some (m, o) => some ⟨m, Function.update s.threads t o⟩
            | none => none
        | none => none
    | .ret t r =>
        match s.threads t with
        | .done r' =>
            if r' = r then some { s with threads := Function.update s.threads t .idle } else none
        | _ => none

end Machine

end XynokConcurrency
