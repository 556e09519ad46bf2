import XynokConcurrency.ThreadPool.WorkerQueue

/-!
# The batching queue as a concurrent object

All operations of {lit}`QueueBatching` on one queue, called by any number of threads.
The elements lie behind a spin lock, and their number is cached outside of it; every
way out of a locked section stores the number before it gives the lock back.

The specification is one list.  A locked operation takes effect at its store of the
length, and every other answer is right at the instant it is read.

Source: {lit}`utils/queue_batching.rs`.

Main definitions:

- Definition {lit}`batchingMachine`: the machine of all threads.
- Definition {lit}`atomicFifo`: the specification.
- Structure {lit}`Refines`: the simulation relation.

Main results:

- Theorem {lit}`Refines.tick`: what every step of every operation does to the list.
- Theorem {lit}`queue_batching_linearizable`: the refinement over whole runs.
-/

namespace XynokConcurrency

namespace Batching

/-! ## Calls and results -/

/-- Where drained elements go: a vector, or cells of a ring from a cursor on, with the
writes made so far. -/
inductive Sink (α : Type)
  | vec (out : List α)
  | buffer (cursor : UInt32) (writes : List (UInt32 × α))
deriving DecidableEq

/-- A use of the queue through a guard: the new content, and the elements it hands
out. -/
abbrev Access (α : Type) := List α → List α × List α

/-- A call on the queue.  The iterator of {lit}`push_batch` gives out {lit}`vals`, and
then ends or panics. -/
inductive Call (α : Type)
  | push (val : α)
  | pushBatch (vals : List α) (panics : Bool)
  | pop
  | popBatch (out : List α) (limit : Nat)
  | drainInto (out : List α)
  | drainIntoBuffer (max : Nat) (writeStartCursor : UInt32)
  | clear
  | get
  | tryGet
  | len
  | isEmpty

/-- What a call returns, or how it unwinds. -/
inductive Res (α : Type)
  | unit
  | panicked
  | popped (val : Option α)
  | taken (n : Nat) (sink : Sink α)
  | cleared (n : Nat)
  | guard
  | noGuard
  | length (n : Nat)
  | empty (b : Bool)
deriving DecidableEq

variable {τ α : Type}

/-- One element is put at an offset. -/
def Sink.put (offset : Nat) (val : α) : Sink α → Sink α
  | .vec out => .vec (out ++ [val])
  | .buffer cursor writes => .buffer cursor (writes ++ [(cursor + UInt32.ofNat offset, val)])

/-- Elements are put from an offset on. -/
def Sink.putAll : Nat → List α → Sink α → Sink α
  | _, [], sink => sink
  | offset, val :: vals, sink => (sink.put offset val).putAll (offset + 1) vals

/-- {lit}`QueueBatchingGuard::push`. -/
def guardPush (val : α) : Access α := fun elements => (elements ++ [val], [])

/-- {lit}`QueueBatchingGuard::pop`. -/
def guardPop : Access α := fun elements => (elements.tail, elements.head?.toList)

/-! ## The operations as step programs -/

/-- Program points of the operations, each with its local variables. -/
inductive Op (α : Type)
  | idle
  | pushLock (val : α)
  | pushBack (val : α)
  | batchLock (vals : List α) (panics : Bool)
  /-- About to ask the iterator for its next element. -/
  | batchNext (rest : List α) (panics : Bool)
  | popIsEmpty
  | popLock
  | popFront
  /-- {lit}`pop_batch` and {lit}`drain_into_buffer`. -/
  | takeLimit (limit : Nat) (sink : Sink α)
  | takeIsEmpty (limit : Nat) (sink : Sink α)
  | takeLock (limit : Nat) (sink : Sink α)
  | takeAmount (limit : Nat) (sink : Sink α)
  | takeFront (taken offset : Nat) (sink : Sink α)
  | clearLock
  | clearAll
  | getLock
  | tryLock
  | lenLoad
  | emptyLoad
  /-- The caller has a guard. -/
  | guarded
  /-- {lit}`release`: the length is stored, and then the lock given back. -/
  | storeLen (r : Res α)
  | unlock (r : Res α)
  | done (r : Res α)

/-- First program point of a call. -/
def Op.start : Call α → Op α
  | .push val => .pushLock val
  | .pushBatch vals panics => .batchLock vals panics
  | .pop => .popIsEmpty
  | .popBatch out limit => .takeLimit limit (.vec out)
  | .drainInto out => .takeLimit (2 ^ 64 - 1) (.vec out)
  | .drainIntoBuffer max cursor => .takeLimit max (.buffer cursor [])
  | .clear => .clearLock
  | .get => .getLock
  | .tryGet => .tryLock
  | .len => .lenLoad
  | .isEmpty => .emptyLoad

/-- Head of the loops that take elements from the front. -/
def Op.takeLoop (taken offset : Nat) (sink : Sink α) : Op α :=
  if offset < taken then .takeFront taken offset sink else .storeLen (.taken taken sink)

/-- The successful round of {lit}`get`; the thread spins while it is disabled. -/
def lock (t : τ) (m : QueueBatching τ α) (o : Op α) : Option (QueueBatching τ α × Op α) :=
  match m.locked with
  | none => some ({ m with locked := some t }, o)
  | some _ => none

/-- One step of an operation other than its store of the length. -/
def tick (t : τ) (m : QueueBatching τ α) : Op α → Option (QueueBatching τ α × Op α)
  | .pushLock val => lock t m (.pushBack val)
  | .pushBack val => some ({ m with elements := m.elements ++ [val] }, .storeLen .unit)
  | .batchLock vals panics => lock t m (.batchNext vals panics)
  | .batchNext (val :: rest) panics =>
      some ({ m with elements := m.elements ++ [val] }, .batchNext rest panics)
  | .batchNext [] panics => some (m, .storeLen (if panics then .panicked else .unit))
  | .popIsEmpty => some (m, if m.len = 0 then .done (.popped none) else .popLock)
  | .popLock => lock t m .popFront
  | .popFront =>
      some ({ m with elements := m.elements.tail }, .storeLen (.popped m.elements.head?))
  | .takeLimit limit sink =>
      some (m, if limit = 0 then .done (.taken 0 sink) else .takeIsEmpty limit sink)
  | .takeIsEmpty limit sink =>
      some (m, if m.len = 0 then .done (.taken 0 sink) else .takeLock limit sink)
  | .takeLock limit sink => lock t m (.takeAmount limit sink)
  | .takeAmount limit sink => some (m, .takeLoop (min limit m.elements.length) 0 sink)
  | .takeFront taken offset sink =>
      match m.elements with
      | val :: rest =>
          some ({ m with elements := rest }, .takeLoop taken (offset + 1) (sink.put offset val))
      | [] => none
  | .clearLock => lock t m .clearAll
  | .clearAll => some ({ m with elements := [] }, .storeLen (.cleared m.elements.length))
  | .getLock => lock t m (.done .guard)
  | .tryLock =>
      match m.locked with
      | none => some ({ m with locked := some t }, .done .guard)
      | some _ => some (m, .done .noGuard)
  | .lenLoad => some (m, .done (.length m.len))
  | .emptyLoad => some (m, .done (.empty (m.len = 0)))
  | .unlock r => some ({ m with locked := none }, .done r)
  | .idle | .guarded | .storeLen _ | .done _ => none

/-- What a thread does next.  A caller that has a guard may use it as it likes, and
drops it when it likes. -/
inductive Choice (α : Type)
  | call (c : Call α)
  | tick
  | commit
  | access (use : Access α) (out : List α)
  | dropGuard
  | ret (r : Res α)

/-- The caller gets a guard. -/
def Res.isGuard : Res α → Bool
  | .guard => true
  | _ => false

/-- One step of a thread. -/
def step [DecidableEq α] (t : τ) (c : Choice α) (m : QueueBatching τ α) (o : Op α) :
    Option (QueueBatching τ α × Op α) :=
  match c, o with
  | .call c, .idle => some (m, .start c)
  | .tick, o => Batching.tick t m o
  | .commit, .storeLen r => some ({ m with len := m.elements.length }, .unlock r)
  | .access use out, .guarded =>
      if (use m.elements).2 = out then some ({ m with elements := (use m.elements).1 }, .guarded)
      else none
  | .dropGuard, .guarded => some (m, .storeLen .unit)
  | .ret r, .done r' =>
      if r = r' then some (m, if r.isGuard then .guarded else .idle) else none
  | _, _ => none

/-- Any number of threads calling one queue, built by {lit}`from_queue`. -/
def batchingMachine [DecidableEq τ] [DecidableEq α] (content : List α) :
    Machine (Machine.Shared τ (QueueBatching τ α) (Op α)) (τ × Choice α) :=
  Machine.ofThreads (fun s => s = ⟨.fromQueue content, fun _ => .idle⟩) step

/-! ## The specification -/

/-- The limit and the sink of a call that takes several elements. -/
def Call.taking : Call α → Option (Nat × Sink α)
  | .popBatch out limit => some (limit, .vec out)
  | .drainInto out => some (2 ^ 64 - 1, .vec out)
  | .drainIntoBuffer max cursor => some (max, .buffer cursor [])
  | _ => none

/-- What a locked call does to the list. -/
def Call.apply (c : Call α) (list : List α) : Option (List α × Res α) :=
  match c with
  | .push val => some (list ++ [val], .unit)
  | .pushBatch vals panics => some (list ++ vals, if panics then .panicked else .unit)
  | .pop => some (list.tail, .popped list.head?)
  | .clear => some ([], .cleared list.length)
  | .get | .tryGet | .len | .isEmpty => none
  | c =>
      c.taking.map fun (limit, sink) =>
        (list.drop limit, .taken (min limit list.length) (sink.putAll 0 (list.take limit)))

/-- The results of a call that leaves the list alone. -/
def Call.Answers (c : Call α) (list : List α) (r : Res α) : Prop :=
  match c with
  | .pop => list = [] ∧ r = .popped none
  | .get => r = .guard
  | .tryGet => r = .guard ∨ r = .noGuard
  | .len => r = .length list.length
  | .isEmpty => r = .empty list.isEmpty
  | c => ∃ limit sink, c.taking = some (limit, sink) ∧ (limit = 0 ∨ list = []) ∧ r = .taken 0 sink

/-- The uses of a guard, with what they hand out, lead from one list to another. -/
def Replays : List (Access α × List α) → List α → List α → Prop
  | [], list, list' => list' = list
  | (use, out) :: log, list, list' => (use list).2 = out ∧ Replays log (use list).1 list'

/-- Where a thread stands, seen from outside. -/
inductive Status (α : Type)
  | idle
  | pending (c : Call α)
  /-- The thread has a guard, and has used it so. -/
  | guarded (log : List (Access α × List α))
  | closing (log : List (Access α × List α))
  | done (r : Res α)

/-- One list, and where every thread stands. -/
structure Fifo (τ α : Type) where
  list : List α
  status : τ → Status α

/-- Move one thread. -/
def Fifo.setStatus [DecidableEq τ] (b : Fifo τ α) (t : τ) (st : Status α) : Fifo τ α :=
  { b with status := Function.update b.status t st }

/-- The effect of a locked operation, or of all uses of a guard at once. -/
def Status.Commits (st : Status α) (list list' : List α) (r : Res α) : Prop :=
  match st with
  | .pending c => c.apply list = some (list', r)
  | .closing log => Replays log list list' ∧ r = .unit
  | _ => False

/-- The specification.  Calls, stores of the length, uses of guards and returns are
observed; an answer that leaves the list alone is given at some instant in between. -/
def atomicFifo [DecidableEq τ] (content : List α) :
    Machine.Spec (Fifo τ α) (τ × Choice α) where
  init b := b = ⟨content, fun _ => .idle⟩
  step b e b' :=
    match e with
    | some (t, .call c) => b.status t = .idle ∧ b' = b.setStatus t (.pending c)
    | some (t, .commit) =>
        ∃ list r, (b.status t).Commits b.list list r ∧
          b' = ⟨list, Function.update b.status t (.done r)⟩
    | some (t, .access use out) =>
        ∃ log, b.status t = .guarded log ∧ b' = b.setStatus t (.guarded (log ++ [(use, out)]))
    | some (t, .dropGuard) =>
        ∃ log, b.status t = .guarded log ∧ b' = b.setStatus t (.closing log)
    | some (t, .ret r) =>
        b.status t = .done r ∧ b' = b.setStatus t (if r.isGuard then .guarded [] else .idle)
    | some (_, .tick) => False
    | none =>
        ∃ t c r, b.status t = .pending c ∧ c.Answers b.list r ∧ b' = b.setStatus t (.done r)

/-- What is observed of a step. -/
def event : τ × Choice α → Option (τ × Choice α)
  | (_, .tick) => none
  | e => some e

/-! ## The simulation relation -/

/-- The thread is between taking the lock and giving it back. -/
def Op.critical : Op α → Bool
  | .pushBack _ | .batchNext _ _ | .popFront | .takeAmount _ _ | .takeFront _ _ _ | .clearAll
  | .guarded | .storeLen _ | .unlock _ => true
  | .done r => r.isGuard
  | _ => false

/-- A call that takes several elements is under way. -/
def Status.Takes (st : Status α) (limit : Nat) (sink : Sink α) : Prop :=
  ∃ c : Call α, c.taking = some (limit, sink) ∧ st = .pending c

/-- Where a program point stands in the specification, with the elements of the queue
and the list of the specification. -/
def Op.At (elements list : List α) : Op α → Status α → Prop
  | .idle, st => st = .idle
  | .pushLock val, st => st = .pending (.push val)
  | .pushBack val, st => st = .pending (.push val) ∧ elements = list
  | .batchLock vals panics, st => st = .pending (.pushBatch vals panics)
  | .batchNext rest panics, st =>
      ∃ taken, st = .pending (.pushBatch (taken ++ rest) panics) ∧ elements = list ++ taken
  | .popIsEmpty, st | .popLock, st => st = .pending .pop
  | .popFront, st => st = .pending .pop ∧ elements = list
  | .takeLimit limit sink, st | .takeIsEmpty limit sink, st | .takeLock limit sink, st =>
      st.Takes limit sink
  | .takeAmount limit sink, st => st.Takes limit sink ∧ elements = list
  | .takeFront taken offset sink, st =>
      ∃ limit sink₀, st.Takes limit sink₀ ∧ taken = min limit list.length ∧ offset < taken ∧
        elements = list.drop offset ∧ sink = sink₀.putAll 0 (list.take offset)
  | .clearLock, st => st = .pending .clear
  | .clearAll, st => st = .pending .clear ∧ elements = list
  | .getLock, st => st = .pending .get
  | .tryLock, st => st = .pending .tryGet
  | .lenLoad, st => st = .pending .len
  | .emptyLoad, st => st = .pending .isEmpty
  | .guarded, st => ∃ log, st = .guarded log ∧ Replays log list elements
  | .storeLen r, st => r.isGuard = false ∧ st.Commits list elements r
  | .unlock r, st => r.isGuard = false ∧ st = .done r ∧ elements = list
  | .done r, st => st = .done r ∧ (r.isGuard = true → elements = list)

/-- The simulation relation: the cached length is that of the list, the elements are
the list while the lock is free, and the thread in a locked section has the lock. -/
structure Refines (s : Machine.Shared τ (QueueBatching τ α) (Op α)) (b : Fifo τ α) : Prop where
  len : s.mem.len = b.list.length
  free : s.mem.locked = none → s.mem.elements = b.list
  critical : ∀ t, (s.threads t).critical = true ↔ s.mem.locked = some t
  at_ : ∀ t, (s.threads t).At s.mem.elements b.list (b.status t)

/-! ## Small facts -/

/-- A thread outside of the locked sections does not look at the elements. -/
theorem Op.At.outside {o : Op α} {e l e' l' : List α} {st : Status α} (h : o.At e l st)
    (hc : o.critical = false) : o.At e' l' st := by
  cases o <;> first | exact h | cases hc | skip
  rename_i r
  exact ⟨h.1, fun hr => by rw [critical, hr] at hc; cases hc⟩

theorem Sink.putAll_snoc (offset : Nat) (vals : List α) (val : α) (sink : Sink α) :
    sink.putAll offset (vals ++ [val]) =
      (sink.putAll offset vals).put (offset + vals.length) val := by
  induction vals generalizing offset sink with
  | nil => rfl
  | cons v vals ih =>
      simp only [List.cons_append, putAll, ih, List.length_cons]
      rw [Nat.add_right_comm, Nat.add_assoc]

@[simp] theorem Sink.putAll_vec (offset : Nat) (vals out : List α) :
    Sink.putAll offset vals (.vec out) = .vec (out ++ vals) := by
  induction vals generalizing offset out with
  | nil => simp [putAll]
  | cons val vals ih => simp [putAll, put, ih]

@[simp] theorem Sink.putAll_buffer (offset : Nat) (vals : List α) (cursor : UInt32)
    (writes : List (UInt32 × α)) :
    Sink.putAll offset vals (.buffer cursor writes) =
      .buffer cursor (writes ++ (vals.zipIdx offset).map fun x => (cursor + UInt32.ofNat x.2, x.1)) := by
  induction vals generalizing offset writes with
  | nil => simp [putAll]
  | cons val vals ih => simp [putAll, put, ih]

theorem Replays.snoc {log : List (Access α × List α)} {l l' : List α} (h : Replays log l l')
    (use : Access α) : Replays (log ++ [(use, (use l').2)]) l (use l').1 := by
  induction log generalizing l with
  | nil =>
      cases h
      exact ⟨rfl, rfl⟩
  | cons entry log ih => exact ⟨h.1, ih h.2⟩

/-- The effect of a call that takes several elements. -/
theorem Call.apply_of_taking {c : Call α} {limit : Nat} {sink : Sink α}
    (h : c.taking = some (limit, sink)) (list : List α) :
    c.apply list = some (list.drop limit,
      .taken (min limit list.length) (sink.putAll 0 (list.take limit))) := by
  cases c <;> cases h <;> rfl

/-- Such a call may find nothing to take. -/
theorem Call.answers_of_taking {c : Call α} {limit : Nat} {sink : Sink α} {list : List α}
    (h : c.taking = some (limit, sink)) (hempty : limit = 0 ∨ list = []) :
    c.Answers list (.taken 0 sink) := by
  cases c <;> first | cases h; done | exact ⟨limit, sink, h, hempty, rfl⟩

/-- The head of the loops that take elements from the front. -/
theorem Op.at_takeLoop {limit offset : Nat} {sink₀ : Sink α} {list : List α} {st : Status α}
    (hst : st.Takes limit sink₀) (hle : offset ≤ min limit list.length) :
    (Op.takeLoop (min limit list.length) offset (sink₀.putAll 0 (list.take offset))).At
      (list.drop offset) list st := by
  unfold Op.takeLoop
  split
  · rename_i hlt
    exact ⟨limit, sink₀, hst, rfl, hlt, rfl, rfl⟩
  · rename_i hge
    obtain rfl : offset = min limit list.length := le_antisymm hle (not_lt.mp hge)
    obtain ⟨c, hc, rfl⟩ := hst
    refine ⟨rfl, ?_⟩
    rw [Status.Commits, Call.apply_of_taking hc, ← List.take_eq_take_min]
    congr 2
    rcases le_total limit list.length with hlim | hlim
    · rw [min_eq_left hlim]
    · rw [min_eq_right hlim, List.drop_eq_nil_of_le hlim, List.drop_length]

/-! ## One step of one thread -/

section Steps

variable [DecidableEq τ] {s : Machine.Shared τ (QueueBatching τ α) (Op α)} {b : Fifo τ α} {t : τ}
  {m : QueueBatching τ α} {o : Op α} {st : Status α}

/-- A thread with a lock changes what it protects, and any thread changes what only it
can see. -/
theorem Refines.update {list : List α} (h : Refines s b)
    (hown : (s.threads t).critical = true ∨ m.elements = s.mem.elements ∧ list = b.list)
    (hlen : m.len = list.length) (hfree : m.locked = none → m.elements = list)
    (hcritical : o.critical = true ↔ m.locked = some t)
    (hlock : ∀ u, u ≠ t → (m.locked = some u ↔ s.mem.locked = some u))
    (hat : o.At m.elements list st) :
    Refines ⟨m, Function.update s.threads t o⟩ ⟨list, Function.update b.status t st⟩ := by
  refine ⟨hlen, hfree, fun u => ?_, fun u => ?_⟩
  · rcases eq_or_ne u t with rfl | hu
    · simpa using hcritical
    · simp only [Function.update_of_ne hu]
      rw [h.critical, hlock u hu]
  · rcases eq_or_ne u t with rfl | hu
    · simpa using hat
    · simp only [Function.update_of_ne hu]
      rcases hown with hown | ⟨heq, rfl⟩
      · refine (h.at_ u).outside ?_
        by_contra hne
        have hlocked := (h.critical u).mp (Bool.eq_true_of_not_eq_false hne)
        rw [(h.critical t).mp hown, Option.some.injEq] at hlocked
        exact hu hlocked.symm
      · rw [heq]
        exact h.at_ u

/-- A step that changes nothing but its thread. -/
theorem Refines.still (h : Refines s b) (hcritical : o.critical = (s.threads t).critical)
    (hat : o.At s.mem.elements b.list st) :
    Refines ⟨s.mem, Function.update s.threads t o⟩ (b.setStatus t st) :=
  h.update (.inr ⟨rfl, rfl⟩) h.len h.free (by rw [hcritical, h.critical]) (fun _ _ => Iff.rfl) hat

/-- The lock is taken. -/
theorem Refines.enter (h : Refines s b) (hfree : s.mem.locked = none) (hcritical : o.critical = true)
    (hat : o.At b.list b.list st) :
    Refines ⟨{ s.mem with locked := some t }, Function.update s.threads t o⟩ (b.setStatus t st) := by
  refine h.update (.inr ⟨rfl, rfl⟩) h.len nofun (by simp [hcritical]) (fun u hu => ?_) ?_
  · simp [hfree, hu.symm]
  · rw [h.free hfree]
    exact hat

/-- The elements are changed under the lock. -/
theorem Refines.inside {elements : List α} (h : Refines s b)
    (hown : (s.threads t).critical = true) (hcritical : o.critical = true)
    (hat : o.At elements b.list st) :
    Refines ⟨{ s.mem with elements := elements }, Function.update s.threads t o⟩
      (b.setStatus t st) := by
  have hlocked := (h.critical t).mp hown
  refine h.update (.inl hown) h.len (fun hfree => ?_) (by simp [hcritical, hlocked])
    (fun _ _ => Iff.rfl) hat
  simp only at hfree
  rw [hlocked] at hfree
  cases hfree

/-- The length is stored, and the list is what the elements are. -/
theorem Refines.commit (h : Refines s b) (hown : (s.threads t).critical = true)
    (hcritical : o.critical = true) (hat : o.At s.mem.elements s.mem.elements st) :
    Refines ⟨{ s.mem with len := s.mem.elements.length }, Function.update s.threads t o⟩
      ⟨s.mem.elements, Function.update b.status t st⟩ :=
  h.update (.inl hown) rfl (fun _ => rfl) (by simp [hcritical, (h.critical t).mp hown])
    (fun _ _ => Iff.rfl) hat

/-- The lock is given back. -/
theorem Refines.leave (h : Refines s b) (hown : (s.threads t).critical = true)
    (heq : s.mem.elements = b.list) (hcritical : o.critical = false)
    (hat : o.At s.mem.elements b.list st) :
    Refines ⟨{ s.mem with locked := none }, Function.update s.threads t o⟩ (b.setStatus t st) := by
  have hlocked := (h.critical t).mp hown
  refine h.update (.inr ⟨rfl, rfl⟩) h.len (fun _ => heq) (by simp [hcritical])
    (fun u hu => ?_) hat
  simp [hlocked, hu.symm]

/-- Nothing happens to the specification, or thread {lit}`t` gets an answer that leaves
the list alone. -/
def Fifo.Follows (t : τ) (b b' : Fifo τ α) : Prop :=
  b' = b ∨ ∃ c r, b.status t = .pending c ∧ c.Answers b.list r ∧ b' = b.setStatus t (.done r)

/-- Every step other than a store of the length leaves the list alone: it is nothing to
the specification, or gives an answer that is right at this instant. -/
theorem Refines.tick (h : Refines s b) (hx : Batching.tick t s.mem (s.threads t) = some (m, o)) :
    ∃ b', b.Follows t b' ∧ Refines ⟨m, Function.update s.threads t o⟩ b' := by
  have hat := h.at_ t
  have hkeep : Refines ⟨m, Function.update s.threads t o⟩ (b.setStatus t (b.status t)) →
      ∃ b', b.Follows t b' ∧ Refines ⟨m, Function.update s.threads t o⟩ b' := by
    intro href
    have hsame : b = b.setStatus t (b.status t) := by simp [Fifo.setStatus]
    exact ⟨b, .inl rfl, hsame ▸ href⟩
  have hanswer : ∀ c r, b.status t = .pending c → c.Answers b.list r →
      Refines ⟨m, Function.update s.threads t o⟩ (b.setStatus t (.done r)) →
      ∃ b', b.Follows t b' ∧ Refines ⟨m, Function.update s.threads t o⟩ b' :=
    fun c r hst hc href => ⟨_, .inr ⟨c, r, hst, hc, rfl⟩, href⟩
  have hlock : ∀ o', lock t s.mem o' = some (m, o) → o'.critical = true →
      o'.At b.list b.list (b.status t) →
      ∃ b', b.Follows t b' ∧ Refines ⟨m, Function.update s.threads t o⟩ b' := by
    intro o' hl hcritical hat'
    unfold lock at hl
    split at hl <;> cases hl
    exact hkeep (h.enter ‹_› hcritical hat')
  have hempty : s.mem.len = 0 → b.list = [] := fun hlen =>
    List.eq_nil_of_length_eq_zero (h.len ▸ hlen)
  cases hop : s.threads t <;> rw [hop] at hx hat <;> simp only [Batching.tick] at hx
  case pushLock val => exact hlock _ hx rfl ⟨hat, rfl⟩
  case pushBack val =>
    cases hx
    obtain ⟨hst, heq⟩ := hat
    refine hkeep (h.inside (by rw [hop]; rfl) rfl ⟨rfl, ?_⟩)
    rw [hst, heq]
    rfl
  case batchLock vals panics => exact hlock _ hx rfl ⟨[], hat, by simp⟩
  case batchNext rest panics =>
    obtain ⟨taken, hst, heq⟩ := hat
    cases rest with
    | nil =>
        cases hx
        refine hkeep (h.still (by rw [hop]; rfl) ⟨by cases panics <;> rfl, ?_⟩)
        rw [hst, heq, List.append_nil]
        rfl
    | cons val rest =>
        cases hx
        refine hkeep (h.inside (by rw [hop]; rfl) rfl ⟨taken ++ [val], ?_, ?_⟩)
        · simpa using hst
        · simp [heq]
  case popIsEmpty =>
    split at hx <;> cases hx
    · rename_i hlen
      exact hanswer .pop _ hat ⟨hempty hlen, rfl⟩ (h.still (by rw [hop]; rfl) ⟨rfl, nofun⟩)
    · exact hkeep (h.still (by rw [hop]; rfl) hat)
  case popLock => exact hlock _ hx rfl ⟨hat, rfl⟩
  case popFront =>
    cases hx
    obtain ⟨hst, heq⟩ := hat
    refine hkeep (h.inside (by rw [hop]; rfl) rfl ⟨rfl, ?_⟩)
    rw [hst, heq]
    rfl
  case takeLimit limit sink =>
    split at hx <;> cases hx
    · rename_i hlimit
      obtain ⟨c, hc, hst⟩ := hat
      exact hanswer c _ hst (Call.answers_of_taking hc (.inl hlimit))
        (h.still (by rw [hop]; rfl) ⟨rfl, nofun⟩)
    · exact hkeep (h.still (by rw [hop]; rfl) hat)
  case takeIsEmpty limit sink =>
    split at hx <;> cases hx
    · rename_i hlen
      obtain ⟨c, hc, hst⟩ := hat
      exact hanswer c _ hst (Call.answers_of_taking hc (.inr (hempty hlen)))
        (h.still (by rw [hop]; rfl) ⟨rfl, nofun⟩)
    · exact hkeep (h.still (by rw [hop]; rfl) hat)
  case takeLock limit sink => exact hlock _ hx rfl ⟨hat, rfl⟩
  case takeAmount limit sink =>
    cases hx
    obtain ⟨hst, heq⟩ := hat
    refine hkeep (h.still ?_ ?_)
    · rw [hop, Op.takeLoop]
      split <;> rfl
    · rw [heq]
      exact Op.at_takeLoop hst (Nat.zero_le _)
  case takeFront taken offset sink =>
    obtain ⟨limit, sink₀, hst, rfl, hlt, heq, rfl⟩ := hat
    have hlen : offset < b.list.length := hlt.trans_le (min_le_right _ _)
    rw [heq, List.drop_eq_getElem_cons hlen] at hx
    cases hx
    refine hkeep (h.inside (by rw [hop]; rfl) ?_ ?_)
    · rw [Op.takeLoop]
      split <;> rfl
    · have hput : (sink₀.putAll 0 (b.list.take offset)).put offset b.list[offset] =
          sink₀.putAll 0 (b.list.take (offset + 1)) := by
        rw [List.take_succ_eq_append_getElem hlen, Sink.putAll_snoc, List.length_take,
          min_eq_left hlen.le, Nat.zero_add]
      rw [hput]
      exact Op.at_takeLoop hst hlt
  case clearLock => exact hlock _ hx rfl ⟨hat, rfl⟩
  case clearAll =>
    cases hx
    obtain ⟨hst, heq⟩ := hat
    refine hkeep (h.inside (by rw [hop]; rfl) rfl ⟨rfl, ?_⟩)
    rw [hst, heq]
    rfl
  case getLock =>
    unfold lock at hx
    split at hx <;> cases hx
    exact hanswer .get .guard hat rfl (h.enter ‹_› rfl ⟨rfl, fun _ => rfl⟩)
  case tryLock =>
    split at hx <;> cases hx
    · exact hanswer .tryGet .guard hat (.inl rfl) (h.enter ‹_› rfl ⟨rfl, fun _ => rfl⟩)
    · exact hanswer .tryGet .noGuard hat (.inr rfl) (h.still (by rw [hop]; rfl) ⟨rfl, nofun⟩)
  case lenLoad =>
    cases hx
    exact hanswer .len _ hat (by rw [Call.Answers, h.len])
      (h.still (by rw [hop]; rfl) ⟨rfl, nofun⟩)
  case emptyLoad =>
    cases hx
    refine hanswer .isEmpty _ hat ?_ (h.still (by rw [hop]; rfl) ⟨rfl, nofun⟩)
    rw [Call.Answers, h.len]
    cases b.list <;> simp
  case unlock r =>
    cases hx
    obtain ⟨hr, hst, heq⟩ := hat
    refine hkeep (h.leave (by rw [hop]; rfl) heq hr ⟨hst, fun hg => ?_⟩)
    rw [hr] at hg
    cases hg
  all_goals cases hx

end Steps

/-! ## Whole runs -/

/-- A call starts outside of the locked sections. -/
theorem Op.at_start (c : Call α) (e l : List α) :
    (Op.start c).critical = false ∧ (Op.start c).At e l (.pending c) := by
  cases c <;> first | exact ⟨rfl, rfl⟩ | exact ⟨rfl, _, rfl, rfl⟩

section Runs

variable [DecidableEq τ] [DecidableEq α]
  {s : Machine.Shared τ (QueueBatching τ α) (Op α)} {b : Fifo τ α} {t : τ} {c : Choice α}
  {m : QueueBatching τ α} {o : Op α} {content : List α}

/-- Every step of a thread is one step of the specification with the same observation,
or none at all. -/
theorem Refines.step (h : Refines s b) (hx : Batching.step t c s.mem (s.threads t) = some (m, o)) :
    ∃ b', (b' = b ∧ event (t, c) = none ∨ (atomicFifo content).step b (event (t, c)) b') ∧
      Refines ⟨m, Function.update s.threads t o⟩ b' := by
  have hat := h.at_ t
  cases c with
  | tick =>
      have htick : Batching.tick t s.mem (s.threads t) = some (m, o) := by
        simpa [Batching.step] using hx
      obtain ⟨b', hfollows, href⟩ := h.tick htick
      refine ⟨b', ?_, href⟩
      rcases hfollows with rfl | ⟨c, r, hst, hc, rfl⟩
      · exact .inl ⟨rfl, rfl⟩
      · exact .inr ⟨t, c, r, hst, hc, rfl⟩
  | call c =>
      cases hop : s.threads t <;> rw [hop] at hx hat <;> cases hx
      obtain ⟨hcritical, hstart⟩ := Op.at_start c s.mem.elements b.list
      exact ⟨_, .inr ⟨hat, rfl⟩, h.still (by rw [hop, hcritical]; rfl) hstart⟩
  | commit =>
      cases hop : s.threads t <;> rw [hop] at hx hat <;> cases hx
      rename_i r
      exact ⟨_, .inr ⟨s.mem.elements, r, hat.2, rfl⟩,
        h.commit (by rw [hop]; rfl) rfl ⟨hat.1, rfl, rfl⟩⟩
  | access use out =>
      cases hop : s.threads t <;> rw [hop] at hx hat <;> simp only [Batching.step, reduceCtorEq] at hx
      split at hx <;> cases hx
      rename_i hout
      obtain ⟨log, hst, hreplays⟩ := hat
      refine ⟨_, .inr ⟨log, hst, rfl⟩, h.inside (by rw [hop]; rfl) rfl ⟨_, rfl, ?_⟩⟩
      exact hout ▸ hreplays.snoc use
  | dropGuard =>
      cases hop : s.threads t <;> rw [hop] at hx hat <;> cases hx
      obtain ⟨log, hst, hreplays⟩ := hat
      exact ⟨_, .inr ⟨log, hst, rfl⟩, h.still (by rw [hop]; rfl) ⟨rfl, hreplays, rfl⟩⟩
  | ret r =>
      cases hop : s.threads t <;> rw [hop] at hx hat <;> simp only [Batching.step, reduceCtorEq] at hx
      split at hx <;> cases hx
      rename_i hr
      subst hr
      obtain ⟨hst, hguard⟩ := hat
      refine ⟨_, .inr ⟨hst, rfl⟩, h.still ?_ ?_⟩
      · rw [hop, Op.critical]
        split <;> simp_all [Op.critical]
      · split
        · exact ⟨[], rfl, hguard ‹_›⟩
        · rfl

/-- The simulation of the specification. -/
def batchingSimulation (content : List α) :
    Machine.Simulation (batchingMachine (τ := τ) content) (atomicFifo content) event where
  rel := Refines
  init := by
    rintro s rfl
    refine ⟨_, rfl, rfl, fun _ => rfl, fun t => ?_, fun t => rfl⟩
    simp [Op.critical, QueueBatching.fromQueue]
  step := by
    intro s b l s' _ h hstep
    obtain ⟨m, o, hx, rfl⟩ := Machine.ofThreads_step hstep
    exact h.step hx

/-- {lit}`QueueBatching` is a linearizable queue with a truthful length.  Every run of the
machine has a run of the specification with the same calls, stores of the length, uses
of guards and returns.  There the list changes at stores of the length only, and as one
call at a time makes it change.  It is as long as the cached length says, and is what
the queue holds whenever the lock is free. -/
theorem queue_batching_linearizable
    {s₀ s : Machine.Shared τ (QueueBatching τ α) (Op α)} {ls : List (τ × Choice α)}
    (hinit : (batchingMachine content).init s₀) (hrun : (batchingMachine content).run s₀ ls = some s) :
    (s.mem.locked = none → s.mem.len = s.mem.elements.length) ∧
      ∃ b, (atomicFifo content).Trace b (Machine.observations event ls) ∧
        s.mem.len = b.list.length ∧ (s.mem.locked = none → s.mem.elements = b.list) := by
  obtain ⟨b, htrace, href⟩ := (batchingSimulation content).trace hinit hrun
  exact ⟨fun hfree => by rw [href.len, href.free hfree], b, htrace, href.len, href.free⟩

end Runs

/-- Two elements are pushed by one thread, the second through an iterator that panics,
and both are taken by another one. -/
def pushesAndDrain : List (Nat × Choice Nat) :=
  [(0, .call (.push 5)), (0, .tick), (0, .tick), (0, .commit), (0, .tick), (0, .ret .unit),
    (0, .call (.pushBatch [6] true)), (1, .call (.drainInto [])), (1, .tick), (1, .tick), (0, .tick),
    (0, .tick), (0, .tick), (0, .commit), (0, .tick), (0, .ret .panicked), (1, .tick), (1, .tick),
    (1, .tick), (1, .tick), (1, .commit), (1, .tick), (1, .ret (.taken 2 (.vec [5, 6])))]

/-- After this run the queue is empty, and so is the list of the specification. -/
theorem linearizable_on_a_drain :
    ∃ b, (atomicFifo []).Trace b (Machine.observations event pushesAndDrain) ∧ b.list = [] := by
  have hrun : ((batchingMachine []).run ⟨.fromQueue [], fun _ => .idle⟩ pushesAndDrain).isSome := by
    decide +kernel
  have hempty : ((batchingMachine []).after ⟨.fromQueue [], fun _ => .idle⟩ pushesAndDrain).mem.len =
      0 := by
    decide +kernel
  obtain ⟨-, b, htrace, hlen, -⟩ := queue_batching_linearizable (by rfl) (Machine.run_after hrun)
  exact ⟨b, htrace, List.eq_nil_of_length_eq_zero (hlen.symm.trans hempty)⟩

end Batching

end XynokConcurrency
