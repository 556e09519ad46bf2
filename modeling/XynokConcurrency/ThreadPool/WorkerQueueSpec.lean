import XynokConcurrency.ThreadPool.QueueContents

/-!
# The worker deque refines an atomic bounded deque

The specification is a family of bounded lists with atomic operations.  A push
appends, a pop removes the last element, a steal removes a prefix in one step and
appends it elsewhere in a later one, and a refill takes a prefix of a plain queue
and appends it.  Every run of the step programs has a run of the specification
with the same calls and the same results, from plain queues of the same content to
plain queues of the same content.

Main results:

- Definition {lit}`atomicDeques`: the specification.
- Structure {lit}`Refines`: the simulation relation.
- Theorem {lit}`Refines.tick`: every step of every operation is one atomic effect
  or none.
- Theorem {lit}`worker_queue_refines_atomic_deque`: the refinement over whole
  runs.
-/

namespace XynokConcurrency

open ClaimRing

variable {δ κ τ α : Type}

/-! ## The specification -/

/-- Where a call stands, seen from outside. -/
inductive Status (δ κ α : Type)
  | idle
  /-- Called, and without effect so far. -/
  | pending (c : QueueCall δ κ α)
  /-- A steal that has removed its elements and not yet published them as taken. -/
  | stealing (victim dst : δ) (vals : List α)
  /-- A steal or a refill that still has to append what it carries. -/
  | appending (dst : δ) (vals : List α) (r : QueueRes α)
  /-- The effect is over and the result is fixed. -/
  | decided (r : QueueRes α)

/-- Bounded lists with atomic operations: the unclaimed elements of every deque,
how many elements are claimed but unpublished, the content of every plain queue,
and where every call stands. -/
structure AtomicDeques (δ κ τ α : Type) where
  list : δ → List α
  claimed : δ → Nat
  src : κ → List α
  status : τ → Status δ κ α

/-- A call or a return, as its caller sees it. -/
inductive QueueEvent (δ κ τ α : Type)
  | call (t : τ) (c : QueueCall δ κ α)
  | ret (t : τ) (r : QueueRes α)

namespace AtomicDeques

variable [DecidableEq δ] [DecidableEq κ] [DecidableEq τ]

def setList (b : AtomicDeques δ κ τ α) (d : δ) (l : List α) : AtomicDeques δ κ τ α :=
  { b with list := Function.update b.list d l }

def setClaimed (b : AtomicDeques δ κ τ α) (d : δ) (n : Nat) : AtomicDeques δ κ τ α :=
  { b with claimed := Function.update b.claimed d n }

def setSrc (b : AtomicDeques δ κ τ α) (q : κ) (l : List α) : AtomicDeques δ κ τ α :=
  { b with src := Function.update b.src q l }

def setStatus (b : AtomicDeques δ κ τ α) (t : τ) (st : Status δ κ α) : AtomicDeques δ κ τ α :=
  { b with status := Function.update b.status t st }

/-- The atomic effects of the calls, each taken by one thread inside its call. -/
inductive Acts (capacity : δ → Nat) (t : τ) :
    AtomicDeques δ κ τ α → AtomicDeques δ κ τ α → Prop
  | push {b : AtomicDeques δ κ τ α} {d : δ} {val : α}
      (h : b.status t = .pending (.push d val))
      (hroom : (b.list d).length + b.claimed d < capacity d) :
      Acts capacity t b ((b.setList d (b.list d ++ [val])).setStatus t (.decided .pushed))
  | pushFull {b : AtomicDeques δ κ τ α} {d : δ} {val : α}
      (h : b.status t = .pending (.push d val))
      (hfull : (b.list d).length + b.claimed d = capacity d) :
      Acts capacity t b (b.setStatus t (.decided (.full val)))
  | pop {b : AtomicDeques δ κ τ α} {d : δ} {l : List α} {val : α}
      (h : b.status t = .pending (.pop d)) (hlast : b.list d = l ++ [val]) :
      Acts capacity t b ((b.setList d l).setStatus t (.decided (.popped (some val))))
  | popEmpty {b : AtomicDeques δ κ τ α} {d : δ}
      (h : b.status t = .pending (.pop d)) (hempty : b.list d = []) :
      Acts capacity t b (b.setStatus t (.decided (.popped none)))
  | len {b : AtomicDeques δ κ τ α} {d : δ} (h : b.status t = .pending (.len d)) :
      Acts capacity t b (b.setStatus t (.decided (.length (b.list d).length)))
  | stealNothing {b : AtomicDeques δ κ τ α} {victim dst : δ} {max : Nat} {r : Steal}
      (h : b.status t = .pending (.trySteal victim max dst)) (hr : r = .empty ∨ r = .busy) :
      Acts capacity t b (b.setStatus t (.decided (.stole r)))
  | stealClaim {b : AtomicDeques δ κ τ α} {victim dst : δ} {max n : Nat}
      (h : b.status t = .pending (.trySteal victim max dst)) (hpos : 1 ≤ n) (hmax : n ≤ max)
      (hlen : n ≤ (b.list victim).length) :
      Acts capacity t b
        (((b.setList victim ((b.list victim).drop n)).setClaimed victim
          (b.claimed victim + n)).setStatus t (.stealing victim dst ((b.list victim).take n)))
  | stealPublish {b : AtomicDeques δ κ τ α} {victim dst : δ} {vals : List α}
      (h : b.status t = .stealing victim dst vals) :
      Acts capacity t b
        ((b.setClaimed victim (b.claimed victim - vals.length)).setStatus t
          (.appending dst vals (.stole (.success vals.length))))
  | refillTake {b : AtomicDeques δ κ τ α} {d : δ} {src : κ} {max n : Nat}
      (h : b.status t = .pending (.pushBatchByTakingFromQueue d max src)) (hpos : 1 ≤ n)
      (hmax : n ≤ max) (hlen : n ≤ (b.src src).length) :
      Acts capacity t b
        ((b.setSrc src ((b.src src).drop n)).setStatus t
          (.appending d ((b.src src).take n) (.moved n)))
  | refillNothing {b : AtomicDeques δ κ τ α} {d : δ} {src : κ} {max : Nat}
      (h : b.status t = .pending (.pushBatchByTakingFromQueue d max src)) :
      Acts capacity t b (b.setStatus t (.decided (.moved 0)))
  | append {b : AtomicDeques δ κ τ α} {d : δ} {vals : List α} {r : QueueRes α}
      (h : b.status t = .appending d vals r)
      (hroom : (b.list d).length + b.claimed d + vals.length ≤ capacity d) :
      Acts capacity t b ((b.setList d (b.list d ++ vals)).setStatus t (.decided r))
  | queuePush {b : AtomicDeques δ κ τ α} {q : κ} {val : α}
      (h : b.status t = .pending (.queuePush q val)) :
      Acts capacity t b ((b.setSrc q (b.src q ++ [val])).setStatus t (.decided .pushed))
  | queuePop {b : AtomicDeques δ κ τ α} {q : κ}
      (h : b.status t = .pending (.queuePop q) ∨ b.status t = .pending (.queueTryPop q)) :
      Acts capacity t b
        ((b.setSrc q (b.src q).tail).setStatus t (.decided (.popped (b.src q).head?)))
  | queuePopNothing {b : AtomicDeques δ κ τ α} {q : κ}
      (h : b.status t = .pending (.queuePop q) ∨ b.status t = .pending (.queueTryPop q)) :
      Acts capacity t b (b.setStatus t (.decided (.popped none)))

end AtomicDeques

/-- The specification: the lists are empty at first and the plain queues hold
{lit}`content`, and an effect happens between the call and the return of the
thread that takes it. -/
def atomicDeques [DecidableEq δ] [DecidableEq κ] [DecidableEq τ] (capacity : δ → Nat)
    (content : κ → List α) : Machine.Spec (AtomicDeques δ κ τ α) (QueueEvent δ κ τ α) where
  init b := b = ⟨fun _ => [], fun _ => 0, content, fun _ => .idle⟩
  step b e b' :=
    match e with
    | none => ∃ t, AtomicDeques.Acts capacity t b b'
    | some (.call t c) => b.status t = .idle ∧ b' = b.setStatus t (.pending c)
    | some (.ret t r) => b.status t = .decided r ∧ b' = b.setStatus t .idle

/-! ## The simulation relation -/

/-- The call whose snapshot is being taken. -/
def Next.call (d : δ) : Next δ κ α → QueueCall δ κ α
  | .push val => .push d val
  | .refill max src => .pushBatchByTakingFromQueue d max src
  | .pop => .pop d
  | .stealDst victim max => .trySteal victim max d
  | .stealVictim dst max _ => .trySteal d max dst
  | .len => .len d

/-- Where a program point with elements {lit}`vs` in its hands stands in the
specification. -/
def Op.Matches (vs : List α) : Op δ κ α → Status δ κ α → Prop
  | .idle, st => st = .idle
  | .cursorAnchor d k, st => st = .pending (k.call d)
  -- the length and an empty pop are settled by the anchor load
  | .cursorStolen _ .len tail blocked, st => st = .decided (.length (tail - blocked).toNat)
  | .cursorStolen d .pop tail blocked, st =>
      st = if (tail - blocked).toNat < 1 then .decided (.popped none) else .pending (.pop d)
  | .cursorStolen d k _ _, st => st = .pending (k.call d)
  | .pushWrite d val _, st => st = .pending (.push d val)
  | .pushAdd d _, st => ∃ val, vs = [val] ∧ st = .pending (.push d val)
  | .popCas d _, st => st = .pending (.pop d)
  | .popTake _ _, st => ∃ val, vs = [val] ∧ st = .decided (.popped (some val))
  | .refillLen d max src _, st => st = .pending (.pushBatchByTakingFromQueue d max src)
  | .drainIsEmpty d src take _, st =>
      ∃ max, take ≤ max ∧ st = .pending (.pushBatchByTakingFromQueue d max src)
  | .drainLock d src take _, st =>
      ∃ max, take ≤ max ∧ st = .pending (.pushBatchByTakingFromQueue d max src)
  | .drainAmount d src take _, st =>
      ∃ max, take ≤ max ∧ st = .pending (.pushBatchByTakingFromQueue d max src)
  | .drainFront d _ moved _ _, st => st = .appending d vs (.moved moved)
  | .drainWrite d _ moved _ _ _, st => st = .appending d vs (.moved moved)
  | .drainStoreLen d _ moved _, st =>
      st = if moved < 1 then .decided (.moved 0) else .appending d vs (.moved moved)
  | .drainUnlock d _ moved _, st =>
      st = if moved < 1 then .decided (.moved 0) else .appending d vs (.moved moved)
  | .refillAdd d moved _, st => st = .appending d vs (.moved moved)
  | .stealCas victim dst amount _ _, st =>
      ∃ max, amount ≤ max ∧ st = .pending (.trySteal victim max dst)
  | .stealTake victim dst _ _ _ _, st => st = .stealing victim dst vs
  | .stealWrite victim dst _ _ _ _ _, st => st = .stealing victim dst vs
  | .publishLoad victim dst _ _ _, st => st = .stealing victim dst vs
  | .publishCas victim dst _ _ _, st => st = .stealing victim dst vs
  | .stealAdd dst amount _, st => st = .appending dst vs (.stole (.success amount))
  | .queuePushLock q val, st => st = .pending (.queuePush q val)
  | .queuePushBack q val, st => st = .pending (.queuePush q val)
  | .queuePushStoreLen _, st => st = .decided .pushed
  | .queuePushUnlock _, st => st = .decided .pushed
  | .queuePopIsEmpty q, st => st = .pending (.queuePop q)
  | .queuePopLock q, st => st = .pending (.queuePop q)
  | .queueTryPopLock q, st => st = .pending (.queueTryPop q)
  | .queuePopFront q, st => st = .pending (.queuePop q) ∨ st = .pending (.queueTryPop q)
  | .queuePopStoreLen _ val, st => st = .decided (.popped val)
  | .queuePopUnlock _ val, st => st = .decided (.popped val)
  | .done r, st => st = .decided r

/-- The atomic deques a state of the step programs stands for. -/
structure Refines [DecidableEq κ] (m : Queues δ κ τ α) (ops : τ → Op δ κ α)
    (b : AtomicDeques δ κ τ α) : Prop where
  list : ∀ d, b.list d = (m.deque d).unclaimed
  claimed : ∀ d, b.claimed d = ((unpack (m.deque d).anchor).2 - (m.deque d).stolen).toNat
  src : ∀ q, b.src q = m.avail ops q
  status : ∀ t, (ops t).Matches ((ops t).hands m) (b.status t)

section Steps

variable [DecidableEq δ] [DecidableEq κ] [DecidableEq τ] {ops : τ → Op δ κ α} {t : τ}
  {m m' : Queues δ κ τ α} {o : Op δ κ α} {spurious : Bool} {i : QInstr δ κ α (Op δ κ α)}
  {b : AtomicDeques δ κ τ α} {st : Status δ κ α}

omit [DecidableEq δ] [DecidableEq κ] in
theorem AtomicDeques.setStatus_self (b : AtomicDeques δ κ τ α) (t : τ) :
    b.setStatus t (b.status t) = b := by
  simp [AtomicDeques.setStatus]

omit [DecidableEq δ] in
/-- What is available in a queue the step leaves alone. -/
theorem Queues.avail_congr {q : κ} (hqueue : m'.queue q = m.queue q)
    (hdrain : o.draining q = (ops t).draining q) :
    m'.avail (Function.update ops t o) q = m.avail ops q := by
  unfold Queues.avail
  rw [hqueue]
  split
  · rename_i u _
    by_cases hu : u = t
    · subst hu
      simp [hdrain]
    · simp [hu]
  · rfl

omit [DecidableEq δ] [DecidableEq τ] in
/-- What is available in a queue that is free, or whose holder drains nothing. -/
theorem Queues.avail_eq_elements {q : κ}
    (hlock : (m.queue q).locked = none ∨ (m.queue q).locked = some t)
    (hdrain : (ops t).draining q = 0) : m.avail ops q = (m.queue q).elements := by
  unfold Queues.avail
  rcases hlock with hlock | hlock <;> simp [hlock, hdrain]

omit [DecidableEq δ] [DecidableEq τ] in
/-- Nothing of a queue is on its way while every call is over. -/
theorem Queues.avail_of_idle (hidle : ∀ x, ops x = .idle) (q : κ) :
    m.avail ops q = (m.queue q).elements := by
  unfold Queues.avail
  split
  · rw [hidle]
    exact List.drop_zero
  · rfl

omit [DecidableEq δ] [DecidableEq τ] in
/-- What is available in a queue the thread holds. -/
theorem Queues.avail_of_locked {q : κ} (hlock : (m.queue q).locked = some t) :
    m.avail ops q = (m.queue q).elements.drop ((ops t).draining q) := by
  simp [Queues.avail, hlock]

omit [DecidableEq δ] [DecidableEq τ] in
theorem Op.draining_of_drains {o : Op δ κ α} (h : o.drains = none) (q : κ) : o.draining q = 0 := by
  simp [Op.draining, h]

/-- Assemble the relation after a step from what the step did to the lists and
to its own call. -/
theorem Refines.after {b' : AtomicDeques δ κ τ α} (hb : Refines m ops b)
    (hinv : DequesInv m.deque ops) (hq : QueuesInv m.queue ops)
    (hi : (ops t).instr spurious = some i) (hx : i.exec t m = some (m', o))
    (hlist : ∀ d, b'.list d = (m'.deque d).unclaimed)
    (hclaimed : ∀ d,
      b'.claimed d = ((unpack (m'.deque d).anchor).2 - (m'.deque d).stolen).toNat)
    (hsrc : ∀ q, b'.src q = m'.avail (Function.update ops t o) q)
    (hself : o.Matches (o.hands m') (b'.status t))
    (hother : ∀ u, u ≠ t → b'.status u = b.status u) :
    Refines m' (Function.update ops t o) b' := by
  refine ⟨hlist, hclaimed, hsrc, fun u => ?_⟩
  by_cases hu : u = t
  · subst hu
    simpa using hself
  · rw [Function.update_of_ne hu, hinv.hands_frame hq hi hx hu, hother u hu]
    exact hb.status u

/-- A step that moves no cursor and makes no element available or unavailable
only changes where its own call stands. -/
theorem Refines.quiet (hb : Refines m ops b) (hinv : DequesInv m.deque ops)
    (hq : QueuesInv m.queue ops) (hi : (ops t).instr spurious = some i)
    (hx : i.exec t m = some (m', o))
    (hanchor : ∀ d, (m'.deque d).anchor = (m.deque d).anchor)
    (hstolen : ∀ d, (m'.deque d).stolen = (m.deque d).stolen)
    (havail : ∀ q, m'.avail (Function.update ops t o) q = m.avail ops q)
    (hst : o.Matches (o.hands m') st) :
    Refines m' (Function.update ops t o) (b.setStatus t st) := by
  refine hb.after hinv hq hi hx (fun d => ?_) (fun d => ?_) (fun q => ?_) ?_ fun u hu => ?_
  · rw [hinv.tick_unclaimed hi hx (hanchor d)]
    exact hb.list d
  · rw [hanchor d, hstolen d]
    exact hb.claimed d
  · rw [havail q]
    exact hb.src q
  · simpa [AtomicDeques.setStatus] using hst
  · simp [AtomicDeques.setStatus, hu]

/-- A step that only reads. -/
theorem Refines.load (hb : Refines m ops b) (hinv : DequesInv m.deque ops)
    (hq : QueuesInv m.queue ops) (hi : (ops t).instr spurious = some i)
    (hx : i.exec t m = some (m, o)) (hdrain : ∀ q, o.draining q = (ops t).draining q)
    (hst : o.Matches (o.hands m) st) :
    Refines m (Function.update ops t o) (b.setStatus t st) :=
  hb.quiet hinv hq hi hx (fun _ => rfl) (fun _ => rfl)
    (fun q => Queues.avail_congr rfl (hdrain q)) hst

/-- A step on the lock or the cached length of a batching queue. -/
theorem Refines.relock {q : κ} {c : QueueBatching τ α} (hb : Refines m ops b)
    (hinv : DequesInv m.deque ops) (hq : QueuesInv m.queue ops)
    (hi : (ops t).instr spurious = some i) (hx : i.exec t m = some (m.setQueue q c, o))
    (hlock : (m.queue q).locked = none ∨ (m.queue q).locked = some t)
    (hlock' : c.locked = none ∨ c.locked = some t)
    (hel : c.elements = (m.queue q).elements) (hdrain : (ops t).drains = none)
    (hdrain' : o.drains = none) (hst : o.Matches (o.hands m) st) :
    Refines (m.setQueue q c) (Function.update ops t o) (b.setStatus t st) := by
  have hhands : o.hands (m.setQueue q c) = o.hands m := by
    simp only [Op.hands, hdrain']
    rfl
  refine hb.quiet hinv hq hi hx (fun _ => rfl) (fun _ => rfl) (fun q' => ?_) (hhands ▸ hst)
  by_cases hq' : q' = q
  · subst hq'
    rw [Queues.avail_eq_elements (t := t) (by simpa [Queues.setQueue] using hlock')
        (by simpa using Op.draining_of_drains hdrain' q'),
      Queues.avail_eq_elements hlock (Op.draining_of_drains hdrain q')]
    simp [Queues.setQueue, hel]
  · refine Queues.avail_congr (Function.update_of_ne hq' ..) ?_
    rw [Op.draining_of_drains hdrain, Op.draining_of_drains hdrain']

/-! ### Steps on the ring -/

omit [DecidableEq δ] [DecidableEq τ] in
/-- The lists and counts of the specification on the positions of the ring. -/
theorem Refines.counts [DecidableEq δ] (hb : Refines m ops b) {d : δ} {r : Ring τ α} (hr : r.Inv)
    (hm : Models (m.deque d) (fun x => (ops x).claimAt d) (fun x => (ops x).ownAt d) r) :
    (b.list d).length = r.tail - r.blocked ∧ b.claimed d = r.blocked - r.stolen := by
  have htl := hr.tail_le
  have hbt := hr.blocked_le
  constructor
  · rw [hb.list d, hm.unclaimed_eq hr, hr.unclaimed_length]
  · rw [hb.claimed d, hm.unpack_anchor]
    exact hm.distance hr.stolen_le (by omega)

omit [DecidableEq τ] in
/-- What an operation has staged fits beside the list and the claims. -/
theorem Refines.room (hb : Refines m ops b) (hinv : DequesInv m.deque ops) {d : δ}
    {tail : UInt32} {room filled : Nat} (hown : (ops t).ownAt d = some (.staged tail room filled)) :
    (b.list d).length + b.claimed d + room ≤ (m.deque d).buffer.capacity ∧ filled ≤ room := by
  obtain ⟨r, hr, hm⟩ := hinv.ring d
  obtain ⟨hlist, hclaimed⟩ := hb.counts hr hm
  obtain ⟨hg, -⟩ := hm.hold_staged hown
  obtain ⟨hfits, hroom⟩ := hr.own_room t _ hg
  simp only [Hold.extent, Hold.Fits] at hroom hfits
  have hsb := hr.stolen_le
  have hbt := hr.blocked_le
  rw [hm.cap]
  omega

/-- A step that replaces one deque sets the list and the count of that deque. -/
theorem Refines.moveCursors {d : δ} {q' : WorkerQueue α} {n : Nat} {l : List α}
    (hb : Refines m ops b) (hinv : DequesInv m.deque ops) (hq : QueuesInv m.queue ops)
    (hi : (ops t).instr spurious = some i) (hx : i.exec t m = some (m.setDeque d q', o))
    (hlist : l = q'.unclaimed) (hclaimed : n = ((unpack q'.anchor).2 - q'.stolen).toNat)
    (hdrain : (ops t).drains = none) (hdrain' : o.drains = none)
    (hst : o.Matches (o.hands (m.setDeque d q')) st) :
    Refines (m.setDeque d q') (Function.update ops t o)
      (((b.setList d l).setClaimed d n).setStatus t st) := by
  refine hb.after hinv hq hi hx (fun e => ?_) (fun e => ?_) (fun q => ?_) ?_ fun u hu => ?_
  · by_cases he : e = d
    · subst he
      simpa [AtomicDeques.setStatus, AtomicDeques.setList, AtomicDeques.setClaimed,
        Queues.setDeque] using hlist
    · simpa [AtomicDeques.setStatus, AtomicDeques.setList, AtomicDeques.setClaimed,
        Queues.setDeque, he] using hb.list e
  · by_cases he : e = d
    · subst he
      simpa [AtomicDeques.setStatus, AtomicDeques.setList, AtomicDeques.setClaimed,
        Queues.setDeque] using hclaimed
    · simpa [AtomicDeques.setStatus, AtomicDeques.setList, AtomicDeques.setClaimed,
        Queues.setDeque, he] using hb.claimed e
  · have hsame : o.draining q = (ops t).draining q := by
      rw [Op.draining_of_drains hdrain, Op.draining_of_drains hdrain']
    have hqueue : (m.setDeque d q').queue q = m.queue q := rfl
    rw [Queues.avail_congr hqueue hsame]
    exact hb.src q
  · simpa [AtomicDeques.setStatus] using hst
  · simp [AtomicDeques.setStatus, AtomicDeques.setList, AtomicDeques.setClaimed, hu]

omit [DecidableEq κ] [DecidableEq τ] in
theorem AtomicDeques.setClaimed_self (b : AtomicDeques δ κ τ α) (d : δ) (l : List α) :
    (b.setList d l).setClaimed d (b.claimed d) = b.setList d l := by
  simp [AtomicDeques.setClaimed, AtomicDeques.setList]

omit [DecidableEq κ] [DecidableEq τ] in
theorem AtomicDeques.setList_self (b : AtomicDeques δ κ τ α) (d : δ) :
    b.setList d (b.list d) = b := by
  simp [AtomicDeques.setList]

/-- Moving the tail appends what was staged. -/
theorem Refines.commit {d : δ} {tail : UInt32} {room filled : Nat} (hb : Refines m ops b)
    (hinv : DequesInv m.deque ops) (hq : QueuesInv m.queue ops)
    (hi : (ops t).instr spurious = some i)
    (hx : i.exec t m = some (m', o))
    (hm' : m' = m.setDeque d
      { m.deque d with anchor := (m.deque d).anchor + (UInt64.ofNat filled <<< 32) })
    (hown : (ops t).ownAt d = some (.staged tail room filled)) (hdrain : (ops t).drains = none)
    (hdrain' : o.drains = none) (hst : ∀ vs, o.Matches vs st) :
    Refines m' (Function.update ops t o)
      ((b.setList d (b.list d ++ (m.deque d).valuesAt tail filled)).setStatus t st) := by
  obtain ⟨r, hr, hm⟩ := hinv.ring d
  obtain ⟨hg, rfl⟩ := hm.hold_staged hown
  have hcommit := hm.commit (t := t) filled fun y hy => hr.own_eq_none_of_ne (by simp [hg]) hy
  subst hm'
  rw [← AtomicDeques.setClaimed_self]
  refine hb.moveCursors hinv hq hi hx ?_ ?_ hdrain hdrain' (hst _)
  · rw [hcommit.unclaimed_eq (hr.commit hg), Ring.unclaimed_commit hr, hb.list d,
      hm.unclaimed_eq hr, hm.valuesAt_ofNat]
  · rw [hb.claimed d, hcommit.unpack_anchor, hm.unpack_anchor]
    rfl

omit [DecidableEq κ] [DecidableEq τ] in
/-- The staged stretch is full. -/
theorem DequesInv.staged_length (hinv : DequesInv m.deque ops) {d : δ} {c : UInt32} {n : Nat}
    (hs : (ops t).staged = some (d, c, n)) : ((m.deque d).valuesAt c n).length = n := by
  obtain ⟨r, hr, hm⟩ := hinv.ring d
  obtain ⟨j, hj, hlive⟩ := hm.stretch_holds hr (.inl hs)
  rw [hj, hm.valuesAt_ofNat]
  exact Ring.values_length fun k hk => (hlive k hk).2

/-- The CAS of {lit}`pop` removes the last element. -/
theorem Refines.popWin {d : δ} {c : CursorData} (hb : Refines m ops b)
    (hinv : DequesInv m.deque ops) (hq : QueuesInv m.queue ops) (hop : ops t = .popCas d c)
    (hi : (ops t).instr spurious = some i) (hx : i.exec t m = some (m', .popTake d (c.tail - 1)))
    (hm' : m' = m.setDeque d { m.deque d with anchor := pack (c.tail - 1) c.blocked })
    (hcas : (m.deque d).anchor = pack c.tail c.blocked) :
    ∃ l val, b.list d = l ++ [val] ∧
      Refines m' (Function.update ops t (.popTake d (c.tail - 1)))
        ((b.setList d l).setStatus t (.decided (.popped (some val)))) := by
  obtain ⟨r, hr, hm⟩ := hinv.ring d
  have hfilled : ¬ c.filledSlots < 1 := by
    have := hinv.localOk t
    rwa [hop] at this
  have hg : r.own t = some .busy := hm.hold_busy (by simp [hop, Op.ownAt])
  rw [hm.anchor] at hcas
  obtain ⟨htail, hblocked⟩ := pack_inj hcas
  have hbt := hr.blocked_le
  have hcap := hm.cap_lt
  have hle := hr.tail_le
  have hsb := hr.stolen_le
  rw [CursorData.filledSlots_ofNat hblocked.symm htail.symm hbt (by omega)] at hfilled
  have hpos : 0 < r.tail := by omega
  have hpop := hm.popClaim (t := t) (fun y hy => hr.own_eq_none_of_ne (by simp [hg]) hy) hpos
  rw [htail, hblocked] at hpop
  obtain ⟨val, hval⟩ := Option.isSome_iff_exists.mp
    (hr.live (r.tail - 1) (by omega) (by omega))
  refine ⟨(r.popClaim t).unclaimed, val, ?_, ?_⟩
  · rw [hb.list d, hm.unclaimed_eq hr, Ring.unclaimed_popClaim (x := t) (by omega) hval]
  · subst hm'
    rw [← AtomicDeques.setClaimed_self]
    refine hb.moveCursors hinv hq hi hx ?_ ?_ (by rw [hop]; rfl) rfl ⟨val, ?_, rfl⟩
    · rw [hpop.unclaimed_eq (hr.popClaim hg (fun k => id) (by omega))]
    · rw [hb.claimed d, hpop.unpack_anchor, hm.unpack_anchor]
      rfl
    · have hcell : (m.deque d).buffer.cellAt (c.tail - 1) = some val := by
        rw [← htail, ofNat_sub_one hpos, hm.cellAt_ofNat]
        exact hval
      simp [Op.hands, Op.staged, Op.inHand, Op.won, Op.drains, Queues.stretch, Queues.front,
        Queues.setDeque, WorkerQueue.valuesAt, hcell]

/-- The CAS of a steal removes a prefix. -/
theorem Refines.stealWin {victim dst : δ} {amount : Nat} {dc vc : CursorData}
    (hb : Refines m ops b) (hinv : DequesInv m.deque ops) (hq : QueuesInv m.queue ops)
    (hop : ops t = .stealCas victim dst amount dc vc) (hi : (ops t).instr spurious = some i)
    (hx : i.exec t m = some (m', .stealTake victim dst amount 0 dc vc.blocked))
    (hm' : m' = m.setDeque victim
      { m.deque victim with anchor := pack vc.tail (vc.blocked + UInt32.ofNat amount) })
    (hcas : (m.deque victim).anchor = pack vc.tail vc.blocked) :
    amount ≤ (b.list victim).length ∧
      Refines m' (Function.update ops t (.stealTake victim dst amount 0 dc vc.blocked))
        (((b.setList victim ((b.list victim).drop amount)).setClaimed victim
          (b.claimed victim + amount)).setStatus t
          (.stealing victim dst ((b.list victim).take amount))) := by
  obtain ⟨hpos, hle⟩ : 0 < amount ∧ amount ≤ vc.filledSlots := by
    have := hinv.localOk t
    rwa [hop] at this
  obtain ⟨r, hr, hm⟩ := hinv.ring victim
  obtain ⟨hlen, hcount⟩ := hb.counts hr hm
  have hnone : r.claim t = none := by
    have := hm.claim t
    simpa [hop, Op.claimAt] using this.symm
  rw [hm.anchor] at hcas
  obtain ⟨htail, hblocked⟩ := pack_inj hcas
  have hbt := hr.blocked_le
  have hcap := hm.cap_lt
  have htl := hr.tail_le
  have hsb := hr.stolen_le
  rw [CursorData.filledSlots_ofNat hblocked.symm htail.symm hbt (by omega)] at hle
  have hr' := hr.claimFront hnone hpos hle
  have hclaim := hm.claimFront (t := t) amount
  rw [htail, hblocked] at hclaim
  have hsplit := Ring.unclaimed_claimFront (r := r) (x := t) hle
  have hprefix : (r.values r.blocked amount).length = amount :=
    Ring.values_length fun k hk => hr.live _ (by omega) (by omega)
  have htake : (b.list victim).take amount = r.values r.blocked amount := by
    rw [hb.list victim, hm.unclaimed_eq hr, hsplit, List.take_left' hprefix]
  have hdrop : (b.list victim).drop amount = (r.claimFront t amount).unclaimed := by
    rw [hb.list victim, hm.unclaimed_eq hr, hsplit, List.drop_left' hprefix]
  refine ⟨by omega, ?_⟩
  subst hm'
  refine hb.moveCursors hinv hq hi hx ?_ ?_ (by rw [hop]; rfl) rfl ?_
  · rw [hdrop, hclaim.unclaimed_eq hr']
  · have hdist := hclaim.distance (i := r.blocked + amount)
      (by show r.stolen ≤ _; omega) (by show _ ≤ r.stolen + r.cap; omega)
    rw [hcount, hclaim.unpack_anchor]
    refine Eq.trans ?_ hdist.symm
    show _ = r.blocked + amount - r.stolen
    omega
  · have hcells : (m.deque victim).valuesAt vc.blocked amount = r.values r.blocked amount := by
      rw [← hblocked, hm.valuesAt_ofNat]
    have hzero : vc.blocked + UInt32.ofNat 0 = vc.blocked := UInt32.add_zero _
    show _ = _
    rw [htake, ← hcells]
    simp only [Op.hands, Op.staged, Op.inHand, Op.won, Op.drains, Queues.stretch, Queues.front,
      Queues.setDeque, hzero]
    simp [WorkerQueue.valuesAt]

/-- The CAS of {lit}`consumer_publish_stolen` gives the claim back. -/
theorem Refines.publishWin {victim dst : δ} {amount : Nat} {dc : CursorData} {start : UInt32}
    (hb : Refines m ops b) (hinv : DequesInv m.deque ops) (hq : QueuesInv m.queue ops)
    (hop : ops t = .publishCas victim dst amount dc start)
    (hi : (ops t).instr spurious = some i) (hx : i.exec t m = some (m', .stealAdd dst amount dc))
    (hm' : m' = m.setDeque victim
      { m.deque victim with stolen := start + UInt32.ofNat amount })
    (hcas : (m.deque victim).stolen = start) :
    b.status t = .stealing victim dst ((m.deque dst).valuesAt dc.tail amount) ∧
      ((m.deque dst).valuesAt dc.tail amount).length = amount ∧
      Refines m' (Function.update ops t (.stealAdd dst amount dc))
        ((b.setClaimed victim (b.claimed victim - amount)).setStatus t
          (.appending dst ((m.deque dst).valuesAt dc.tail amount)
            (.stole (.success amount)))) := by
  have hhands : (ops t).hands m = (m.deque dst).valuesAt dc.tail amount := by
    simp [hop, Op.hands, Op.staged, Op.inHand, Op.won, Op.drains, Queues.stretch, Queues.front]
  have hstatus := hb.status t
  rw [hhands, hop] at hstatus
  refine ⟨hstatus, ?_, ?_⟩
  · exact hinv.staged_length (t := t) (by rw [hop]; rfl)
  · obtain ⟨r, hr, hm⟩ := hinv.ring victim
    obtain ⟨-, hcount⟩ := hb.counts hr hm
    obtain ⟨c, hc, hstart, hlen, htaken⟩ := hm.exists_claim (x := t)
      (c := ⟨start, amount, amount⟩) (by simp [hop, Op.claimAt])
    simp only at hstart hlen htaken
    subst hlen
    have hrange := hr.claim_range t c hc
    have hcap := hm.cap_lt
    have htl := hr.tail_le
    have hbt := hr.blocked_le
    have hfirst : c.start = r.stolen := by
      have hsame : UInt32.ofNat r.stolen = UInt32.ofNat c.start := by
        rw [← hm.stolen, hcas, hstart]
      exact (ofNat_inj_of_lt hrange.1 (by omega) hsame).symm
    have hr' := hr.publish hc htaken.symm hfirst
    have hpublish := hm.publish (t := t) c.len
    rw [← hm.stolen, hcas] at hpublish
    subst hm'
    have hsetList := AtomicDeques.setList_self b victim
    rw [← hsetList]
    refine hb.moveCursors hinv hq hi hx ?_ ?_ (by rw [hop]; rfl) rfl ?_
    · rw [hpublish.unclaimed_eq hr', hb.list victim, hm.unclaimed_eq hr]
      rfl
    · have hdist := hpublish.distance (i := r.blocked)
        (by show r.stolen + c.len ≤ _; omega) (by show _ ≤ r.stolen + c.len + r.cap; omega)
      rw [hsetList, hcount, hpublish.unpack_anchor]
      refine Eq.trans ?_ hdist.symm
      show _ = r.blocked - (r.stolen + c.len)
      omega
    · by_cases hdst : dst = victim
      · subst hdst
        simp [Op.Matches, Op.hands, Op.staged, Op.inHand, Op.won, Op.drains, Queues.stretch,
          Queues.front, Queues.setDeque, WorkerQueue.valuesAt]
      · simp [Op.Matches, Op.hands, Op.staged, Op.inHand, Op.won, Op.drains, Queues.stretch,
          Queues.front, Queues.setDeque, WorkerQueue.valuesAt, hdst]

omit [DecidableEq τ] in
/-- The length computed from an anchor is that of the list. -/
theorem Refines.length_eq (hb : Refines m ops b) (hinv : DequesInv m.deque ops) (d : δ) :
    ((unpack (m.deque d).anchor).1 - (unpack (m.deque d).anchor).2).toNat =
      (b.list d).length := by
  obtain ⟨r, hr, hm⟩ := hinv.ring d
  have hcap := hm.cap_lt
  have hsb := hr.stolen_le
  have htl := hr.tail_le
  rw [(hb.counts hr hm).1, hm.unpack_anchor]
  exact toNat_ofNat_sub hr.blocked_le (by omega)

omit [DecidableEq τ] in
/-- No free slot in the owner's snapshot: the list and the claims fill the ring
at the instant the stolen cursor was loaded. -/
theorem Refines.full (hb : Refines m ops b) (hinv : DequesInv m.deque ops) {d : δ}
    {tail blocked : UInt32} (hown : (ops t).ownAt d = some (.staged tail 0 0))
    (hfull : (CursorData.mk (m.deque d).stolen blocked tail ((m.deque d).buffer.mask + 1)
      (m.deque d).buffer.mask).emptySlots < 1) :
    (b.list d).length + b.claimed d = (m.deque d).buffer.capacity := by
  obtain ⟨r, hr, hm⟩ := hinv.ring d
  obtain ⟨hlist, hclaimed⟩ := hb.counts hr hm
  obtain ⟨-, rfl⟩ := hm.hold_staged hown
  have hlt := hm.cap_lt
  have hle := hr.tail_le
  have hsb := hr.stolen_le
  have hbt := hr.blocked_le
  have hcap : (m.deque d).buffer.mask + 1 = UInt32.ofNat r.cap := by
    rw [← hm.cap, FixedRingBuffer.capacity, UInt32.ofNat_add, UInt32.ofNat_toNat]
    rfl
  rw [CursorData.emptySlots_ofNat (s := r.stolen) (t := r.tail) hcap (by omega)
    hm.stolen rfl (by omega) hle] at hfull
  rw [hm.cap]
  omega

/-- A step of the specification, or none. -/
def AtomicDeques.Follows (capacity : δ → Nat) (t : τ) (b b' : AtomicDeques δ κ τ α) : Prop :=
  b' = b ∨ AtomicDeques.Acts capacity t b b'

variable {capacity : δ → Nat}

/-- The first load of {lit}`cursor_data`. -/
theorem Refines.anchorLoad {d : δ} {k : Next δ κ α} (hb : Refines m ops b)
    (hinv : DequesInv m.deque ops) (hq : QueuesInv m.queue ops) (hop : ops t = .cursorAnchor d k)
    (hi : (ops t).instr spurious = some i) (hx : i.exec t m = some (m, o))
    (ho : o = .cursorStolen d k (unpack (m.deque d).anchor).1 (unpack (m.deque d).anchor).2) :
    ∃ b', b.Follows capacity t b' ∧ Refines m (Function.update ops t o) b' := by
  have hstatus := hb.status t
  rw [hop] at hstatus
  have hlen := hb.length_eq hinv d
  have hdrain : ∀ q, o.draining q = (ops t).draining q := fun q => by rw [ho, hop]; rfl
  have stay : b.status t = .pending (k.call d) → o.Matches (o.hands m) (.pending (k.call d)) →
      ∃ b', b.Follows capacity t b' ∧ Refines m (Function.update ops t o) b' := by
    intro hpending hst
    rw [← hpending] at hst
    exact ⟨_, .inl (b.setStatus_self t), hb.load hinv hq hi hx hdrain hst⟩
  cases k with
  | push val => exact stay hstatus (by rw [ho]; rfl)
  | refill max src => exact stay hstatus (by rw [ho]; rfl)
  | stealDst victim max => exact stay hstatus (by rw [ho]; rfl)
  | stealVictim dst max dc => exact stay hstatus (by rw [ho]; rfl)
  | pop =>
      by_cases hempty : (b.list d).length < 1
      · refine ⟨_, .inr (.popEmpty hstatus (List.length_eq_zero_iff.mp (by omega))), ?_⟩
        refine hb.load hinv hq hi hx hdrain ?_
        rw [ho]
        simp only [Op.Matches, hlen, if_pos hempty]
      · refine stay hstatus ?_
        rw [ho]
        simp only [Op.Matches, hlen, if_neg hempty]
        rfl
  | len =>
      refine ⟨_, .inr (.len hstatus), hb.load hinv hq hi hx hdrain ?_⟩
      rw [ho]
      simp only [Op.Matches, hlen]

/-- The second load of {lit}`cursor_data`. -/
theorem Refines.stolenLoad {d : δ} {k : Next δ κ α} {tail blocked : UInt32}
    (hcap : ∀ d, (m.deque d).buffer.capacity = capacity d) (hb : Refines m ops b)
    (hinv : DequesInv m.deque ops) (hq : QueuesInv m.queue ops)
    (hop : ops t = .cursorStolen d k tail blocked) (hi : (ops t).instr spurious = some i)
    (hx : i.exec t m = some (m, o))
    (ho : o = .afterCursorData d ⟨(m.deque d).stolen, blocked, tail,
      (m.deque d).buffer.mask + 1, (m.deque d).buffer.mask⟩ k) :
    ∃ b', b.Follows capacity t b' ∧ Refines m (Function.update ops t o) b' := by
  have hstatus := hb.status t
  rw [hop] at hstatus
  have load : ∀ {st}, o.drains = none → o.Matches (o.hands m) st →
      Refines m (Function.update ops t o) (b.setStatus t st) := by
    intro st hdrain hst
    refine hb.load hinv hq hi hx (fun q => ?_) hst
    rw [Op.draining_of_drains hdrain, hop]
    rfl
  have stay : ∀ {st}, b.status t = st → o.drains = none → o.Matches (o.hands m) st →
      ∃ b', b.Follows capacity t b' ∧ Refines m (Function.update ops t o) b' := by
    intro st hpending hdrain hst
    rw [← hpending] at hst
    exact ⟨_, .inl (b.setStatus_self t), load hdrain hst⟩
  cases k with
  | push val =>
      simp only [Op.afterCursorData] at ho
      split at ho
      · rename_i hfull
        have := hb.full hinv (t := t) (by simp [hop, Op.ownAt, Next.ownAt]) hfull
        refine ⟨_, .inr (.pushFull hstatus (this.trans (hcap d))), load (by rw [ho]; rfl) ?_⟩
        rw [ho]
        rfl
      · exact stay hstatus (by rw [ho]; rfl) (by rw [ho]; rfl)
  | refill max src => exact stay hstatus (by rw [ho]; rfl) (by rw [ho]; rfl)
  | stealDst victim max => exact stay hstatus (by rw [ho]; rfl) (by rw [ho]; rfl)
  | len => exact stay hstatus (by rw [ho]; rfl) (by rw [ho]; rfl)
  | pop =>
      simp only [Op.Matches] at hstatus
      simp only [Op.afterCursorData, Op.popLoop] at ho
      split at ho
      · rename_i hempty
        rw [if_pos (show (tail - blocked).toNat < 1 from hempty)] at hstatus
        exact stay hstatus (by rw [ho]; rfl) (by rw [ho]; rfl)
      · rename_i hfilled
        rw [if_neg (show ¬ (tail - blocked).toNat < 1 from hfilled)] at hstatus
        exact stay hstatus (by rw [ho]; rfl) (by rw [ho]; rfl)
  | stealVictim dst max dc =>
      simp only [Op.afterCursorData] at ho
      split at ho
      · refine ⟨_, .inr (.stealNothing hstatus (.inl rfl)), load (by rw [ho]; rfl) ?_⟩
        rw [ho]
        rfl
      · refine stay hstatus (by rw [ho]; rfl) ?_
        rw [ho]
        exact ⟨max, by omega, rfl⟩

/-- The head of the loop of {lit}`pop`, with a fresh anchor. -/
theorem Refines.popRetry {d : δ} {c c' : CursorData} (hb : Refines m ops b)
    (hinv : DequesInv m.deque ops) (hq : QueuesInv m.queue ops) (hop : ops t = .popCas d c)
    (hi : (ops t).instr spurious = some i) (hx : i.exec t m = some (m, .popLoop d c'))
    (hc' : c'.filledSlots =
      ((unpack (m.deque d).anchor).1 - (unpack (m.deque d).anchor).2).toNat) :
    ∃ b', b.Follows capacity t b' ∧ Refines m (Function.update ops t (.popLoop d c')) b' := by
  have hstatus := hb.status t
  rw [hop] at hstatus
  rw [hb.length_eq hinv d] at hc'
  unfold Op.popLoop at hx ⊢
  by_cases hempty : c'.filledSlots < 1
  · rw [if_pos hempty] at hx ⊢
    refine ⟨_, .inr (.popEmpty hstatus (List.length_eq_zero_iff.mp (by omega))), ?_⟩
    exact hb.load hinv hq hi hx (fun q => by rw [hop]; rfl) rfl
  · rw [if_neg hempty] at hx ⊢
    refine ⟨_, .inl (b.setStatus_self t), ?_⟩
    refine hb.load hinv hq hi hx (fun q => by rw [hop]; rfl) ?_
    rw [hstatus]
    rfl

/-- Taking the lock decides how much of the source a refill moves. -/
theorem Refines.drainAmount {d : δ} {src : κ} {take : Nat} {c : CursorData} (hb : Refines m ops b)
    (hinv : DequesInv m.deque ops) (hq : QueuesInv m.queue ops)
    (hop : ops t = .drainAmount d src take c) (hi : (ops t).instr spurious = some i)
    (hx : i.exec t m = some (m, o))
    (ho : o = .drainLoop d src (min take (m.queue src).elements.length) 0 c) :
    ∃ b', b.Follows capacity t b' ∧ Refines m (Function.update ops t o) b' := by
  have hstatus := hb.status t
  rw [hop] at hstatus
  obtain ⟨max, hmax, hpending⟩ := hstatus
  have hlock : (m.queue src).locked = some t := hq.holder t src (by rw [hop]; rfl)
  have hsrc : b.src src = (m.queue src).elements := by
    rw [hb.src src, Queues.avail_of_locked hlock, hop]
    rfl
  unfold Op.drainLoop at ho
  split at ho
  · rename_i hpos
    refine ⟨_, .inr (.refillTake (n := min take (m.queue src).elements.length) hpending
      (by omega) (by omega) (by rw [hsrc]; omega)), ?_⟩
    refine hb.after hinv hq hi hx (fun e => hb.list e) (fun e => hb.claimed e) (fun q => ?_) ?_
      fun u hu => ?_
    · by_cases hsame : q = src
      · subst hsame
        rw [Queues.avail_of_locked (t := t) hlock, ho]
        simp [AtomicDeques.setStatus, AtomicDeques.setSrc, hsrc, Op.draining, Op.drains]
      · have hzero : o.draining q = (ops t).draining q := by
          rw [ho, hop]
          simp [Op.draining, Op.drains, Ne.symm hsame]
        rw [Queues.avail_congr rfl hzero]
        simpa [AtomicDeques.setStatus, AtomicDeques.setSrc, hsame] using hb.src q
    · rw [ho]
      simp [AtomicDeques.setStatus, Op.Matches, Op.hands, Op.staged, Op.inHand, Op.won,
        Op.drains, Queues.stretch, Queues.front, WorkerQueue.valuesAt, hsrc]
    · simp [AtomicDeques.setStatus, AtomicDeques.setSrc, hu]
  · rename_i hzero
    refine ⟨_, .inr (.refillNothing hpending), ?_⟩
    refine hb.load hinv hq hi hx (fun q => by rw [ho, hop]; rfl) ?_
    rw [ho]
    simp only [Op.Matches]
    rw [if_pos (by omega)]

/-- One element leaves the source. -/
theorem Refines.drainFront {d : δ} {src : κ} {moved offset : Nat} {c : CursorData} {val : α}
    {rest : List α} (hb : Refines m ops b) (hinv : DequesInv m.deque ops)
    (hq : QueuesInv m.queue ops) (hop : ops t = .drainFront d src moved offset c)
    (hi : (ops t).instr spurious = some i)
    (hx : i.exec t m = some (m.setQueue src { m.queue src with elements := rest },
      .drainWrite d src moved offset c val))
    (hel : (m.queue src).elements = val :: rest) :
    Refines (m.setQueue src { m.queue src with elements := rest })
      (Function.update ops t (.drainWrite d src moved offset c val)) b := by
  have hlt : offset < moved := by
    have := hinv.localOk t
    rwa [hop] at this
  have hsplit : moved - offset = (moved - (offset + 1)) + 1 := by omega
  have hlock : (m.queue src).locked = some t := hq.holder t src (by rw [hop]; rfl)
  rw [← b.setStatus_self t]
  refine hb.quiet hinv hq hi hx (fun _ => rfl) (fun _ => rfl) (fun q => ?_) ?_
  · by_cases hsame : q = src
    · subst hsame
      rw [Queues.avail_of_locked (t := t) hlock, Queues.avail_of_locked (t := t)
        (by simpa [Queues.setQueue] using hlock), hop, hel]
      simp [Queues.setQueue, Op.draining, Op.drains, hsplit]
    · refine Queues.avail_congr (Function.update_of_ne hsame ..) ?_
      rw [hop]
      simp [Op.draining, Op.drains, Ne.symm hsame]
  · have hstatus := hb.status t
    rw [hop] at hstatus
    have hhands : (Op.drainWrite d src moved offset c val).hands
        (m.setQueue src { m.queue src with elements := rest }) =
        (Op.drainFront d src moved offset c).hands m := by
      simp [Op.hands, Op.staged, Op.inHand, Op.won, Op.drains, Queues.stretch, Queues.front,
        Queues.setQueue, hel, hsplit]
    rw [hhands]
    exact hstatus

/-- The holder of a batching queue changes its content. -/
theorem Refines.changeElements {q : κ} {els : List α} (hb : Refines m ops b)
    (hinv : DequesInv m.deque ops) (hq : QueuesInv m.queue ops)
    (hi : (ops t).instr spurious = some i) (hx : i.exec t m = some (m', o))
    {l : List α} (hm' : m' = m.setQueue q { m.queue q with elements := els })
    (hlock : (m.queue q).locked = some t) (hdrain : (ops t).drains = none)
    (hdrain' : o.drains = none) (hels : l = els) (hst : ∀ vs, o.Matches vs st) :
    Refines m' (Function.update ops t o) ((b.setSrc q l).setStatus t st) := by
  subst hm' hels
  refine hb.after hinv hq hi hx (fun e => hb.list e) (fun e => hb.claimed e) (fun q' => ?_) ?_
    fun u hu => ?_
  · by_cases hsame : q' = q
    · subst hsame
      rw [Queues.avail_eq_elements (t := t) (.inr (by simpa [Queues.setQueue] using hlock))
        (by simpa using Op.draining_of_drains hdrain' q')]
      simp [AtomicDeques.setStatus, AtomicDeques.setSrc, Queues.setQueue]
    · have hzero : o.draining q' = (ops t).draining q' := by
        rw [Op.draining_of_drains hdrain, Op.draining_of_drains hdrain']
      rw [Queues.avail_congr (Function.update_of_ne hsame ..) hzero]
      simpa [AtomicDeques.setStatus, AtomicDeques.setSrc, hsame] using hb.src q'
  · simpa [AtomicDeques.setStatus] using hst _
  · simp [AtomicDeques.setStatus, AtomicDeques.setSrc, hu]

/-- A slot access that leaves the call where it stands. -/
theorem Refines.slotAccess {d : δ} {buffer : FixedRingBuffer α} (hb : Refines m ops b)
    (hinv : DequesInv m.deque ops) (hq : QueuesInv m.queue ops)
    (hi : (ops t).instr spurious = some i) (hx : i.exec t m = some (m', o))
    (hm' : m' = m.setDeque d { m.deque d with buffer := buffer })
    (hdrain : ∀ q, o.draining q = (ops t).draining q)
    (hst : o.Matches (o.hands m') (b.status t)) :
    Refines m' (Function.update ops t o) b := by
  subst hm'
  have hset : ∀ e, (Function.update m.deque d { m.deque d with buffer := buffer } e).anchor =
      (m.deque e).anchor ∧
      (Function.update m.deque d { m.deque d with buffer := buffer } e).stolen =
        (m.deque e).stolen := by
    intro e
    by_cases he : e = d
    · subst he
      simp
    · simp [he]
  rw [← b.setStatus_self t]
  exact hb.quiet hinv hq hi hx (fun e => (hset e).1) (fun e => (hset e).2)
    (fun q => Queues.avail_congr rfl (hdrain q)) hst

/-- Every step of every operation is one atomic effect or none. -/
theorem Refines.tick (hcap : ∀ d, (m.deque d).buffer.capacity = capacity d)
    (hb : Refines m ops b) (hinv : DequesInv m.deque ops) (hq : QueuesInv m.queue ops)
    (hi : (ops t).instr spurious = some i) (hx : i.exec t m = some (m', o)) :
    ∃ b', b.Follows capacity t b' ∧ Refines m' (Function.update ops t o) b' := by
  have hi₀ := hi
  have hx₀ := hx
  have hstatus := hb.status t
  have hlocal := hinv.localOk t
  have stay : Refines m' (Function.update ops t o) (b.setStatus t (b.status t)) →
      ∃ b', b.Follows capacity t b' ∧ Refines m' (Function.update ops t o) b' :=
    fun h => ⟨_, .inl (b.setStatus_self t), h⟩
  cases hop : ops t <;> rw [hop] at hi hstatus hlocal <;> simp only [Op.instr] at hi
  case idle => cases hi
  case done => cases hi
  case cursorAnchor d k =>
    cases hi
    cases hx
    exact hb.anchorLoad hinv hq hop hi₀ hx₀ rfl
  case cursorStolen d k tail blocked =>
    cases hi
    cases hx
    exact hb.stolenLoad hcap hinv hq hop hi₀ hx₀ rfl
  case pushWrite d val c =>
    cases hi
    cases hx
    refine ⟨b, .inl rfl, hb.slotAccess hinv hq hi₀ hx₀ rfl (fun q => by rw [hop]; rfl) ?_⟩
    refine ⟨val, ?_, hstatus⟩
    simp [Op.hands, Op.staged, Op.inHand, Op.won, Op.drains, Queues.stretch, Queues.front,
      Queues.setDeque, WorkerQueue.valuesAt, FixedRingBuffer.cellAt_write]
  case pushAdd d c =>
    cases hi
    cases hx
    obtain ⟨val, hval, hpending⟩ := hstatus
    have hown : (ops t).ownAt d = some (.staged c.tail 1 1) := by simp [hop, Op.ownAt]
    have hvals : (m.deque d).valuesAt c.tail 1 = [val] := by
      simpa [hop, Op.hands, Op.staged, Op.inHand, Op.won, Op.drains, Queues.stretch,
        Queues.front] using hval
    have hroom := hb.room hinv hown
    refine ⟨_, .inr (.push hpending (by rw [← hcap d]; omega)), ?_⟩
    rw [← hvals]
    exact hb.commit hinv hq hi₀ hx₀ rfl hown (by rw [hop]; rfl) rfl fun vs => rfl
  case popCas d c =>
    split at hi <;> cases hi
    · cases hx
      exact hb.popRetry hinv hq hop hi₀ hx₀ rfl
    · simp only [QInstr.exec] at hx
      split at hx <;> cases hx
      · rename_i hcas
        obtain ⟨l, val, hlast, hnew⟩ := hb.popWin hinv hq hop hi₀ hx₀ rfl hcas
        exact ⟨_, .inr (.pop hstatus hlast), hnew⟩
      · exact hb.popRetry hinv hq hop hi₀ hx₀ rfl
  case popTake d cursor =>
    cases hi
    simp only [QInstr.exec] at hx
    split at hx <;> cases hx
    rename_i v hv
    obtain ⟨val, hval, hdecided⟩ := hstatus
    refine ⟨b, .inl rfl, hb.slotAccess hinv hq hi₀ hx₀ rfl (fun q => by rw [hop]; rfl) ?_⟩
    have hzero : cursor + UInt32.ofNat 0 = cursor := UInt32.add_zero cursor
    have hsame : v = val := by
      simpa [hop, Op.hands, Op.staged, Op.inHand, Op.won, Op.drains, Queues.stretch,
        Queues.front, WorkerQueue.valuesAt, hv] using hval
    rw [hdecided, hsame]
    rfl
  case refillLen d max src c =>
    cases hi
    cases hx
    have hdrain : ∀ q, (if min (min c.emptySlots max) (m.queue src).len < 1 then
        Op.done (.moved 0) else Op.drainIsEmpty d src (min (min c.emptySlots max)
          (m.queue src).len) c : Op δ κ α).draining q = (ops t).draining q := by
      intro q
      rw [hop]
      split <;> rfl
    dsimp only at hx₀ ⊢
    by_cases hzero : min (min c.emptySlots max) (m.queue src).len < 1
    · rw [if_pos hzero] at hx₀ hdrain ⊢
      exact ⟨_, .inr (.refillNothing hstatus), hb.load hinv hq hi₀ hx₀ hdrain rfl⟩
    · rw [if_neg hzero] at hx₀ hdrain ⊢
      refine ⟨_, .inl (b.setStatus_self t), hb.load hinv hq hi₀ hx₀ hdrain ?_⟩
      exact ⟨max, by omega, hstatus⟩
  case drainIsEmpty d src take c =>
    cases hi
    cases hx
    obtain ⟨max, hmax, hpending⟩ := hstatus
    dsimp only at hx₀ ⊢
    by_cases hzero : (m.queue src).len = 0
    · rw [if_pos hzero] at hx₀ ⊢
      exact ⟨_, .inr (.refillNothing hpending),
        hb.load hinv hq hi₀ hx₀ (fun q => by rw [hop]; rfl) rfl⟩
    · rw [if_neg hzero] at hx₀ ⊢
      refine ⟨_, .inl (b.setStatus_self t),
        hb.load hinv hq hi₀ hx₀ (fun q => by rw [hop]; rfl) ⟨max, hmax, hpending⟩⟩
  case drainLock d src take c =>
    cases hi
    simp only [QInstr.exec] at hx
    split at hx <;> cases hx
    rename_i hfree
    exact stay (hb.relock hinv hq hi₀ hx₀ (.inl hfree) (.inr rfl) rfl (by rw [hop]; rfl) rfl hstatus)
  case drainAmount d src take c =>
    cases hi
    cases hx
    exact hb.drainAmount hinv hq hop hi₀ hx₀ rfl
  case drainFront d src moved offset c =>
    cases hi
    simp only [QInstr.exec] at hx
    split at hx <;> cases hx
    rename_i v rest hel
    exact ⟨b, .inl rfl, hb.drainFront hinv hq hop hi₀ hx₀ hel⟩
  case drainWrite d src moved offset c val =>
    cases hi
    cases hx
    have hown : (ops t).ownAt d = some (.staged c.tail moved offset) := by simp [hop, Op.ownAt]
    obtain ⟨hstaged, -⟩ := hinv.fill_stretch hown hlocal val rfl
    refine ⟨b, .inl rfl, hb.slotAccess hinv hq hi₀ hx₀ rfl (fun q => ?_) ?_⟩
    · rw [hop]
      unfold Op.drainLoop
      split
      · rfl
      · simp only [Op.draining, Op.drains]
        split <;> omega
    · unfold Op.drainLoop
      split
      · simpa [Op.Matches, Op.hands, Op.staged, Op.inHand, Op.won, Op.drains, Queues.stretch,
          Queues.front, hstaged] using hstatus
      · have hlast : moved = offset + 1 := by
          simp only [Op.LocalOk] at hlocal
          omega
        subst hlast
        simpa [Op.Matches, Op.hands, Op.staged, Op.inHand, Op.won, Op.drains, Queues.stretch,
          Queues.front, hstaged] using hstatus
  case drainStoreLen d src moved c =>
    cases hi
    cases hx
    exact stay (hb.relock hinv hq hi₀ hx₀ (.inr (hq.holder t src (by rw [hop]; rfl)))
      (.inr (hq.holder t src (by rw [hop]; rfl))) rfl (by rw [hop]; rfl) rfl hstatus)
  case drainUnlock d src moved c =>
    cases hi
    cases hx
    have hlock := hq.holder t src (by rw [hop]; rfl)
    refine stay (hb.relock hinv hq hi₀ hx₀ (.inr hlock) (.inl rfl) rfl (by rw [hop]; rfl) ?_ ?_)
    · split <;> rfl
    · simp only [Op.Matches] at hstatus
      split
      · rename_i hzero
        rw [if_pos hzero] at hstatus
        exact hstatus
      · rename_i hpos
        rw [if_neg hpos] at hstatus
        exact hstatus
  case refillAdd d moved c =>
    cases hi
    cases hx
    have hown : (ops t).ownAt d = some (.staged c.tail moved moved) := by simp [hop, Op.ownAt]
    have hvals : (Op.refillAdd d moved c : Op δ κ α).hands m =
        (m.deque d).valuesAt c.tail moved := by
      simp [Op.hands, Op.staged, Op.inHand, Op.won, Op.drains, Queues.stretch, Queues.front]
    rw [hvals] at hstatus
    have hlen := hinv.staged_length (t := t) (d := d) (c := c.tail) (n := moved) (by rw [hop]; rfl)
    obtain ⟨hroom, -⟩ := hb.room hinv hown
    refine ⟨_, .inr (.append hstatus (by rw [← hcap d, hlen]; exact hroom)), ?_⟩
    exact hb.commit hinv hq hi₀ hx₀ rfl hown (by rw [hop]; rfl) rfl fun vs => rfl
  case stealCas victim dst amount dc vc =>
    cases hi
    obtain ⟨max, hmax, hpending⟩ := hstatus
    simp only [QInstr.exec] at hx
    split at hx <;> cases hx
    · rename_i hcas
      have hloop : (Op.stealLoop victim dst amount 0 dc vc.blocked : Op δ κ α) =
          .stealTake victim dst amount 0 dc vc.blocked := if_pos hlocal.1
      rw [hloop] at hi₀ hx₀ ⊢
      obtain ⟨hle, hnew⟩ := hb.stealWin hinv hq hop hi₀ hx₀ rfl hcas
      exact ⟨_, .inr (.stealClaim hpending hlocal.1 hmax hle), hnew⟩
    · exact ⟨_, .inr (.stealNothing hpending (.inr rfl)),
        hb.load hinv hq hi₀ hx₀ (fun q => by rw [hop]; rfl) rfl⟩
  case stealTake victim dst amount offset dc start =>
    cases hi
    simp only [QInstr.exec] at hx
    split at hx <;> cases hx
    rename_i v hv
    have hclaim : (ops t).claimAt victim = some ⟨start, amount, offset⟩ := by
      simp [hop, Op.claimAt]
    have hown : (ops t).ownAt dst = some (.staged dc.tail amount offset) := by
      simp [hop, Op.ownAt]
    obtain ⟨hwon, hstaged⟩ := hinv.take_stretch hclaim hlocal hv rfl
    refine ⟨b, .inl rfl, hb.slotAccess hinv hq hi₀ hx₀ rfl (fun q => by rw [hop]; rfl) ?_⟩
    simpa [Op.Matches, Op.hands, Op.staged, Op.inHand, Op.won, Op.drains, Queues.stretch,
      Queues.front, hwon, hstaged dst _ _ _ hown] using hstatus
  case stealWrite victim dst amount offset dc start val =>
    cases hi
    cases hx
    have hclaim : (ops t).claimAt victim = some ⟨start, amount, offset + 1⟩ := by
      simp [hop, Op.claimAt]
    have hown : (ops t).ownAt dst = some (.staged dc.tail amount offset) := by
      simp [hop, Op.ownAt]
    obtain ⟨hstaged, hwon⟩ := hinv.fill_stretch hown hlocal val rfl
    refine ⟨b, .inl rfl, hb.slotAccess hinv hq hi₀ hx₀ rfl (fun q => ?_) ?_⟩
    · rw [hop]
      unfold Op.stealLoop
      split <;> rfl
    · have hrest := hwon _ _ _ _ hclaim
      simp only [Op.Matches, Op.hands, Op.staged, Op.inHand, Op.won, Op.drains, Queues.stretch,
        Queues.front, List.append_nil] at hstatus
      unfold Op.stealLoop
      split
      · simp only [Op.Matches, Op.hands, Op.staged, Op.inHand, Op.won, Op.drains, Queues.stretch,
          Queues.front, List.append_nil]
        rw [hstaged, hrest, hstatus]
      · have hlast : amount = offset + 1 := by
          simp only [Op.LocalOk] at hlocal
          omega
        subst hlast
        simp only [Op.Matches, Op.hands, Op.staged, Op.inHand, Op.won, Op.drains, Queues.stretch,
          Queues.front, List.append_nil]
        rw [hstaged, hstatus]
        simp
  case publishLoad victim dst amount dc start =>
    cases hi
    cases hx
    refine stay (hb.load hinv hq hi₀ hx₀ (fun q => ?_) ?_)
    · rw [hop]
      dsimp only
      split <;> rfl
    · dsimp only
      split <;> exact hstatus
  case publishCas victim dst amount dc start =>
    split at hi <;> cases hi
    · cases hx
      exact stay (hb.load hinv hq hi₀ hx₀ (fun q => by rw [hop]; rfl) hstatus)
    · simp only [QInstr.exec] at hx
      split at hx <;> cases hx
      · rename_i hcas
        obtain ⟨hstealing, hlen, hnew⟩ := hb.publishWin hinv hq hop hi₀ hx₀ rfl hcas
        refine ⟨_, .inr (.stealPublish hstealing), ?_⟩
        rw [hlen]
        exact hnew
      · exact stay (hb.load hinv hq hi₀ hx₀ (fun q => by rw [hop]; rfl) hstatus)
  case stealAdd dst amount dc =>
    cases hi
    cases hx
    have hown : (ops t).ownAt dst = some (.staged dc.tail amount amount) := by
      simp [hop, Op.ownAt]
    have hvals : (Op.stealAdd dst amount dc : Op δ κ α).hands m =
        (m.deque dst).valuesAt dc.tail amount := by
      simp [Op.hands, Op.staged, Op.inHand, Op.won, Op.drains, Queues.stretch, Queues.front]
    rw [hvals] at hstatus
    have hlen := hinv.staged_length (t := t) (d := dst) (c := dc.tail) (n := amount)
      (by rw [hop]; rfl)
    obtain ⟨hroom, -⟩ := hb.room hinv hown
    refine ⟨_, .inr (.append hstatus (by rw [← hcap dst, hlen]; exact hroom)), ?_⟩
    exact hb.commit hinv hq hi₀ hx₀ rfl hown (by rw [hop]; rfl) rfl fun vs => rfl
  case queuePushLock q val =>
    cases hi
    simp only [QInstr.exec] at hx
    split at hx <;> cases hx
    rename_i hfree
    exact stay (hb.relock hinv hq hi₀ hx₀ (.inl hfree) (.inr rfl) rfl (by rw [hop]; rfl) rfl hstatus)
  case queuePushBack q val =>
    cases hi
    cases hx
    have hlock := hq.holder t q (by rw [hop]; rfl)
    refine ⟨_, .inr (.queuePush hstatus), hb.changeElements hinv hq hi₀ hx₀ rfl hlock
      (by rw [hop]; rfl) rfl ?_ fun vs => rfl⟩
    rw [hb.src q, Queues.avail_eq_elements (.inr hlock) (by rw [hop]; rfl)]
  case queuePushStoreLen q =>
    cases hi
    cases hx
    have hlock := hq.holder t q (by rw [hop]; rfl)
    exact stay (hb.relock hinv hq hi₀ hx₀ (.inr hlock) (.inr hlock) rfl (by rw [hop]; rfl) rfl
      hstatus)
  case queuePushUnlock q =>
    cases hi
    cases hx
    have hlock := hq.holder t q (by rw [hop]; rfl)
    exact stay (hb.relock hinv hq hi₀ hx₀ (.inr hlock) (.inl rfl) rfl (by rw [hop]; rfl) rfl
      hstatus)
  case queuePopIsEmpty q =>
    cases hi
    cases hx
    dsimp only at hx₀ ⊢
    by_cases hzero : (m.queue q).len = 0
    · rw [if_pos hzero] at hx₀ ⊢
      exact ⟨_, .inr (.queuePopNothing (.inl hstatus)),
        hb.load hinv hq hi₀ hx₀ (fun q => by rw [hop]; rfl) rfl⟩
    · rw [if_neg hzero] at hx₀ ⊢
      exact ⟨_, .inl (b.setStatus_self t),
        hb.load hinv hq hi₀ hx₀ (fun q => by rw [hop]; rfl) hstatus⟩
  case queuePopLock q =>
    cases hi
    simp only [QInstr.exec] at hx
    split at hx <;> cases hx
    rename_i hfree
    exact stay (hb.relock hinv hq hi₀ hx₀ (.inl hfree) (.inr rfl) rfl (by rw [hop]; rfl) rfl
      (.inl hstatus))
  case queueTryPopLock q =>
    cases hi
    simp only [QInstr.exec] at hx
    split at hx <;> cases hx
    · rename_i hfree
      exact stay (hb.relock hinv hq hi₀ hx₀ (.inl hfree) (.inr rfl) rfl (by rw [hop]; rfl) rfl
        (.inr hstatus))
    · exact ⟨_, .inr (.queuePopNothing (.inr hstatus)),
        hb.load hinv hq hi₀ hx₀ (fun q => by rw [hop]; rfl) rfl⟩
  case queuePopFront q =>
    cases hi
    cases hx
    have hlock := hq.holder t q (by rw [hop]; rfl)
    have hsrc : b.src q = (m.queue q).elements := by
      rw [hb.src q, Queues.avail_eq_elements (.inr hlock) (by rw [hop]; rfl)]
    refine ⟨_, .inr (.queuePop hstatus), ?_⟩
    rw [hsrc]
    exact hb.changeElements hinv hq hi₀ hx₀ rfl hlock (by rw [hop]; rfl) rfl rfl fun vs => rfl
  case queuePopStoreLen q val =>
    cases hi
    cases hx
    have hlock := hq.holder t q (by rw [hop]; rfl)
    exact stay (hb.relock hinv hq hi₀ hx₀ (.inr hlock) (.inr hlock) rfl (by rw [hop]; rfl) rfl
      hstatus)
  case queuePopUnlock q val =>
    cases hi
    cases hx
    have hlock := hq.holder t q (by rw [hop]; rfl)
    exact stay (hb.relock hinv hq hi₀ hx₀ (.inr hlock) (.inl rfl) rfl (by rw [hop]; rfl) rfl
      hstatus)

omit [DecidableEq δ] [DecidableEq τ] in
/-- The queues may change outside of the operations, if what the operations have in their
hands stays. -/
theorem Refines.change (hb : Refines m ops b) (hhands : ∀ u, (ops u).hands m' = (ops u).hands m) :
    ∃ b' : AtomicDeques δ κ τ α, Refines m' ops b' ∧ b'.status = b.status := by
  refine ⟨⟨fun d => (m'.deque d).unclaimed,
    fun d => ((unpack (m'.deque d).anchor).2 - (m'.deque d).stolen).toNat, m'.avail ops, b.status⟩,
    ⟨fun _ => rfl, fun _ => rfl, fun _ => rfl, fun u => ?_⟩, rfl⟩
  rw [hhands u]
  exact hb.status u

omit [DecidableEq δ] in
/-- A thread that starts or ends a call disturbs nothing. -/
theorem Refines.enter (hb : Refines m ops b) (hdrain : (ops t).drains = none)
    (hdrain' : o.drains = none) (hst : o.Matches (o.hands m) st) :
    Refines m (Function.update ops t o) (b.setStatus t st) := by
  refine ⟨hb.list, hb.claimed, fun q => ?_, fun u => ?_⟩
  · rw [Queues.avail_congr rfl
      (by rw [Op.draining_of_drains hdrain, Op.draining_of_drains hdrain'])]
    exact hb.src q
  · by_cases hu : u = t
    · subst hu
      simpa [AtomicDeques.setStatus] using hst
    · simpa [AtomicDeques.setStatus, hu] using hb.status u

omit [DecidableEq δ] [DecidableEq κ] [DecidableEq τ] in
/-- The first program point of a call is a pending call. -/
theorem Op.matches_start (c : QueueCall δ κ α) (vs : List α) :
    (Op.start c).Matches vs (.pending c) := by
  cases c <;> rfl

end Steps

/-! ## Dropping a queue -/

section Drop

variable [DecidableEq δ] {ops : τ → Op δ κ α} {deque : δ → WorkerQueue α}

/-- The drop of a deque visits exactly its unclaimed elements. -/
theorem DequesInv.dropCells_eq (hinv : DequesInv deque ops) (d : δ) :
    (deque d).dropCells = (deque d).unclaimed.map some := by
  have hlive := (hinv.slotOwnership d).live
  have hall : ∀ c ∈ (deque d).dropCells, c.isSome := by
    intro c hc
    simp only [WorkerQueue.dropCells, List.mem_map, List.mem_range] at hc
    obtain ⟨k, hk, rfl⟩ := hc
    exact hlive k hk
  have hmap : ∀ cs : List (Option α), (∀ c ∈ cs, c.isSome) → cs = (cs.filterMap id).map some := by
    intro cs
    induction cs with
    | nil => exact fun _ => rfl
    | cons c cs ih =>
        intro h
        obtain ⟨v, rfl⟩ := Option.isSome_iff_exists.mp (h c List.mem_cons_self)
        simpa using ih fun c' hc' => h c' (List.mem_cons_of_mem _ hc')
  exact hmap _ hall

/-- Once every call is over, no element is left outside of the range the drop
visits. -/
theorem DequesInv.no_leak (hinv : DequesInv deque ops) (hidle : ∀ x, ops x = .idle) (d : δ)
    {slot : Nat} (hslot : slot < (deque d).buffer.capacity)
    (hfull : ((deque d).buffer.cells slot).isSome) :
    ∃ k, k < ((unpack (deque d).anchor).1 - (unpack (deque d).anchor).2).toNat ∧
      (deque d).buffer.maskSlot ((unpack (deque d).anchor).2 + UInt32.ofNat k) = slot := by
  obtain ⟨r, hr, hm⟩ := hinv.ring d
  have hcap := hm.cap_lt
  have hpos := hr.cap_pos
  have hsb := hr.stolen_le
  have hbt := hr.blocked_le
  have htl := hr.tail_le
  rw [hm.cap] at hslot
  have hown : ∀ x, r.own x = none := by
    intro x
    have := hm.own x
    simpa [hidle x, Op.ownAt] using this.symm
  have hblocked : r.blocked = r.stolen := by
    by_contra hne
    obtain ⟨x, c, hc, -⟩ := hr.exists_first_claim (by omega)
    have := hm.claim x
    simp [hidle x, Op.claimAt, hc] at this
  -- the position of the window that falls on the slot
  obtain ⟨p, hp, hp', hmod⟩ : ∃ p, r.stolen ≤ p ∧ p < r.stolen + r.cap ∧ p % r.cap = slot := by
    refine ⟨r.stolen + (slot + r.cap - r.stolen % r.cap) % r.cap, Nat.le_add_right .., ?_, ?_⟩
    · exact Nat.add_lt_add_left (Nat.mod_lt _ hpos) _
    · have hlt := Nat.mod_lt r.stolen hpos
      rw [Nat.add_mod, Nat.mod_mod, ← Nat.add_mod, Nat.add_mod,
        ← Nat.add_mod, ← Nat.mod_add_mod,
        show r.stolen % r.cap + (slot + r.cap - r.stolen % r.cap) = slot + r.cap by omega,
        Nat.add_mod_right, Nat.mod_eq_of_lt hslot]
  have hlt : p < r.tail := by
    by_contra hge
    have hnone := hr.free p (by omega) hp' fun x g hg => by simp [hown x] at hg
    rw [hm.cell] at hfull
    simp [Ring.slot, hmod] at hnone
    simp [hnone] at hfull
  rw [hm.unpack_anchor]
  refine ⟨p - r.blocked, ?_, ?_⟩
  · rw [toNat_ofNat_sub hbt (by omega)]
    omega
  · rw [← UInt32.ofNat_add, Nat.add_sub_cancel' (by omega), FixedRingBuffer.maskSlot_ofNat,
      hm.cap, hmod]

end Drop

/-! ## Runs -/

section Runs

variable [DecidableEq δ] [DecidableEq κ] [DecidableEq τ] [DecidableEq α]

/-- Calls and returns are what a caller sees. -/
def QueueLabel.event : QueueLabel δ κ τ α → Option (QueueEvent δ κ τ α)
  | .call t c => some (.call t c)
  | .tick _ _ => none
  | .ret t r => some (.ret t r)

/-- The lock discipline in every reachable state. -/
theorem queueMachine_queuesInv {owner : δ → τ} {capacity : δ → Nat}
    {hcap : ∀ d, acceptsCapacity (capacity d)}
    {s : Machine.Shared τ (Queues δ κ τ α) (Op δ κ α)}
    (hs : (queueMachine owner capacity hcap).Reachable s) : QueuesInv s.mem.queue s.threads := by
  refine Machine.Reachable.invariant (I := fun s => QueuesInv s.mem.queue s.threads) ?_ ?_ hs
  · rintro s ⟨-, -, hidle⟩
    constructor <;> intro t q hq <;> rw [hidle t] at hq <;> cases hq
  · rintro s l s' - hinv hstep
    cases l with
    | call t c =>
        simp only [queueMachine] at hstep
        split at hstep <;> cases hstep
        exact hinv.update (Op.holds_start c)
    | tick t spurious =>
        simp only [queueMachine] at hstep
        split at hstep
        · rename_i i hi
          split at hstep <;> cases hstep
          rename_i m o hx
          exact hinv.tick hi hx
        · cases hstep
    | ret t r =>
        simp only [queueMachine] at hstep
        split at hstep
        · split at hstep <;> cases hstep
          exact hinv.update rfl
        · cases hstep

/-- From one start on, the step programs simulate the atomic deques over what the
plain queues hold there. -/
def queueSimulation (owner : δ → τ) (capacity : δ → Nat)
    (hcap : ∀ d, acceptsCapacity (capacity d))
    (s₀ : Machine.Shared τ (Queues δ κ τ α) (Op δ κ α))
    (hinit : (queueMachine owner capacity hcap).init s₀) :
    Machine.Simulation ((queueMachine owner capacity hcap).startingAt s₀)
      (atomicDeques capacity fun q => (s₀.mem.queue q).elements) QueueLabel.event where
  rel s b := Refines s.mem s.threads b
  init := by
    rintro s rfl
    obtain ⟨hdeque, -, hidle⟩ := hinit
    refine ⟨_, rfl, ⟨fun d => ?_, fun d => ?_, fun q => ?_, fun t => ?_⟩⟩
    · obtain ⟨cursor, hd⟩ := hdeque d
      simp [hd, WorkerQueue.unclaimed, WorkerQueue.dropCells, WorkerQueue.startingAt]
    · obtain ⟨cursor, hd⟩ := hdeque d
      simp [hd, WorkerQueue.startingAt]
    · exact (Queues.avail_of_idle hidle q).symm
    · rw [hidle t]
      rfl
  step := by
    intro s b l s' hs hb hstep
    replace hs := hs.of_startingAt hinit
    obtain ⟨hinv, hcapacity, -⟩ := queueMachine_dequesInv hs
    cases l with
    | call t c =>
        simp only [Machine.startingAt, queueMachine] at hstep
        split at hstep <;> cases hstep
        rename_i hallowed
        have hidle : s.threads t = .idle := by
          unfold callAllowed at hallowed
          split at hallowed <;> simp_all
        have hstatus := hb.status t
        rw [hidle] at hstatus
        refine ⟨b.setStatus t (.pending c), .inr ⟨hstatus, rfl⟩, ?_⟩
        exact hb.enter (by rw [hidle]; rfl) (by cases c <;> rfl) (Op.matches_start c _)
    | tick t spurious =>
        simp only [Machine.startingAt, queueMachine] at hstep
        split at hstep
        · rename_i i hi
          split at hstep <;> cases hstep
          rename_i m o hx
          obtain ⟨b', hfollows, hb'⟩ := hb.tick hcapacity hinv (queueMachine_queuesInv hs) hi hx
          refine ⟨b', ?_, hb'⟩
          rcases hfollows with rfl | hact
          · exact .inl ⟨rfl, rfl⟩
          · exact .inr ⟨t, hact⟩
        · cases hstep
    | ret t r =>
        simp only [Machine.startingAt, queueMachine] at hstep
        split at hstep
        · rename_i r' hop
          split at hstep <;> cases hstep
          rename_i hr
          subst hr
          have hstatus := hb.status t
          rw [hop] at hstatus
          refine ⟨b.setStatus t .idle, .inr ⟨hstatus, rfl⟩, ?_⟩
          exact hb.enter (by rw [hop]; rfl) rfl rfl
        · cases hstep

/-- Every run of the deques has a run of the atomic deques with the same calls
and results, over what the plain queues hold at the start.  Its plain queues end
with what is left in those of the program, and its lists are the unclaimed
ranges, which is what dropping the queues drops; once every call is over nothing
is left outside. -/
theorem worker_queue_refines_atomic_deque (owner : δ → τ) (capacity : δ → Nat)
    (hcap : ∀ d, acceptsCapacity (capacity d))
    (s₀ s : Machine.Shared τ (Queues δ κ τ α) (Op δ κ α)) (ls : List (QueueLabel δ κ τ α))
    (hinit : (queueMachine owner capacity hcap).init s₀)
    (hrun : (queueMachine owner capacity hcap).run s₀ ls = some s) :
    ∃ b, (atomicDeques capacity fun q => (s₀.mem.queue q).elements).Trace b
        (Machine.observations QueueLabel.event ls) ∧
      (∀ q, s.mem.avail s.threads q = b.src q ∧
        ((s.mem.queue q).locked = none ∨ (∀ t, s.threads t = .idle) →
          (s.mem.queue q).elements = b.src q)) ∧
      ∀ d, (s.mem.deque d).unclaimed = b.list d ∧
        ((unpack (s.mem.deque d).anchor).2 - (s.mem.deque d).stolen).toNat = b.claimed d ∧
        (s.mem.deque d).dropCells = (b.list d).map some ∧
        ((∀ t, s.threads t = .idle) → ∀ slot, slot < capacity d →
          ((s.mem.deque d).buffer.cells slot).isSome →
          ∃ k, k < (b.list d).length ∧
            (s.mem.deque d).buffer.maskSlot
              ((unpack (s.mem.deque d).anchor).2 + UInt32.ofNat k) = slot) := by
  have hs := Machine.Reachable.run (.init hinit) hrun
  obtain ⟨hinv, hcapacity, -⟩ := queueMachine_dequesInv hs
  obtain ⟨b, htrace, hb⟩ := (queueSimulation owner capacity hcap s₀ hinit).trace rfl
    (Machine.run_startingAt.trans hrun)
  refine ⟨b, htrace, fun q => ⟨(hb.src q).symm, ?_⟩, fun d => ⟨(hb.list d).symm,
    (hb.claimed d).symm, ?_, fun hidle slot hslot hfull => ?_⟩⟩
  · rw [hb.src q]
    rintro (hfree | hidle)
    · simp [Queues.avail, hfree]
    · exact (Queues.avail_of_idle hidle q).symm
  · rw [hb.list d]
    exact hinv.dropCells_eq d
  · rw [← hb.length_eq hinv d]
    exact hinv.no_leak hidle d (by rw [hcapacity d]; exact hslot) hfull

end Runs

/-- Two deques of two slots, whose cursors are about to wrap, and a plain queue
of three elements. -/
def filledQueue : Machine.Shared Bool (Queues Bool Unit Bool Nat) (Op Bool Unit Nat) where
  mem := ⟨twoDeques.mem.deque, fun _ => .fromQueue [7, 8, 9]⟩
  threads := fun _ => .idle

/-- One thread refills its deque with two elements while the other one pushes to the
plain queue.  Then the other one steals, and between its CAS and its publishing the
first one pops. -/
def refillAndSteal : List (QueueLabel Bool Unit Bool Nat) :=
  .call true (.pushBatchByTakingFromQueue true 2 ()) :: QueueLabel.ticks true 3 ++
    QueueLabel.wholeCall false (.queuePush () 5) 4 .pushed ++ QueueLabel.ticks true 10 ++
    .ret true (.moved 2) :: .call false (.trySteal true 1 false) :: QueueLabel.ticks false 6 ++
    QueueLabel.wholeCall true (.pop true) 4 (.popped (some 8)) ++ QueueLabel.ticks false 4 ++
    [.ret false (.stole (.success 1))]

/-- The atomic deques make the same calls with the same results.  They start with the
three elements in the plain queue, and end with one of them at the thief, one still in
the queue before the new one, and none at the victim. -/
theorem worker_queue_refines_on_a_refill_and_a_steal :
    ∃ b, (atomicDeques (fun _ : Bool => 2) fun _ : Unit => [7, 8, 9]).Trace b
        (Machine.observations QueueLabel.event refillAndSteal) ∧
      b.src () = [9, 5] ∧ b.list true = [] ∧ b.list false = [7] := by
  have hrun : ((queueMachine id (fun _ => 2) acceptsTwo).run filledQueue refillAndSteal).isSome := by
    decide +kernel
  have hinit : (queueMachine id (fun _ => 2) acceptsTwo).init filledQueue :=
    ⟨fun _ => ⟨0xFFFFFFFF, rfl⟩, fun _ => ⟨[7, 8, 9], rfl⟩, fun _ => rfl⟩
  obtain ⟨b, htrace, hsrc, hlist⟩ := worker_queue_refines_atomic_deque id (fun _ => 2) acceptsTwo
    filledQueue _ refillAndSteal hinit (Machine.run_after hrun)
  refine ⟨b, htrace, ?_, ?_, ?_⟩
  · rw [← (hsrc ()).1]
    decide +kernel
  · rw [← (hlist true).1]
    decide +kernel
  · rw [← (hlist false).1]
    decide +kernel

end XynokConcurrency
