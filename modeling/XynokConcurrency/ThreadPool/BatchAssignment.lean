import XynokConcurrency.ThreadPool.Programs
import Mathlib.Data.Int.CardIntervalMod
import Mathlib.Data.Set.Function

/-!
# How a batch is assigned to the inboxes

A publisher holds all inbox locks while it assigns its batch, so that the
assignment is a function of what the inboxes held when they were locked.  The
model follows the recursion of {lit}`with_batch_inboxes`: every level adds a
callback that keeps the jobs for its own inbox and hands the others on, and the
innermost level gives the finished chain to {lit}`assign`.

Source: {lit}`publish_batch` and {lit}`with_batch_inboxes` in
{lit}`thread_pool/shared.rs`.

Main results:

- Theorem {lit}`withBatchInboxes_eq`: the chain of callbacks puts every job where it
  belongs, and its unreachable end is never reached.
- Theorem {lit}`batchTarget_bijOn`: the turns are in bijection with the participating
  slots.
- Theorem {lit}`publish_batch_assignment`: every participating inbox gets one residue
  class of the batch.
-/

namespace XynokConcurrency

/-! ## The two functions -/

/-- What a worker slot holds. -/
@[ext]
structure SlotContents (α : Type) where
  tasks : List α
  inbox : List α

/-- What the worker slots of a pool hold, with the registrations of its sleepers and
the workers that were unparked. -/
structure BatchState (α : Type) where
  workers : Nat → SlotContents α
  sleepers : List Nat
  unparked : List Nat

/-- Panics that can unwind out of the {lit}`assign` closure. -/
inductive BatchPanic
  | iterator (payload : Nat)
  | unreachable
deriving DecidableEq, Repr

section Functions

variable {α : Type}

/-- The inbox of a slot is changed. -/
def modInbox (workers : Nat → SlotContents α) (index : Nat) (f : List α → List α) :
    Nat → SlotContents α :=
  Function.update workers index
    ⟨(workers index).tasks, f (workers index).inbox⟩

/-- A callback of the chain: it puts a job into an inbox, or panics. -/
abbrev PushFn (α : Type) :=
  Nat → α → (Nat → SlotContents α) → Except BatchPanic (Nat → SlotContents α)

/-- The {lit}`assign` closure of {lit}`publish_batch`, from its {lit}`index`th job on.
The iterator gives out {lit}`jobs`, and then ends or panics with {lit}`fails`. -/
def assign (inner : ThreadPoolInner) (caller : Nat) (fails : Option Nat) (push : PushFn α) :
    Nat → List α → (Nat → SlotContents α) → (Nat → SlotContents α) × Option BatchPanic
  | _, [], workers => (workers, fails.map .iterator)
  | index, job :: jobs, workers =>
      match push (batchTarget inner caller index) job workers with
      | .ok workers => assign inner caller fails push (index + 1) jobs workers
      | .error payload => (workers, some payload)

/-- {lit}`with_batch_inboxes` at level {lit}`index`, with {lit}`levels` more inboxes to
lock. -/
def withBatchInboxes
    (assign : PushFn α → (Nat → SlotContents α) → (Nat → SlotContents α) × Option BatchPanic) :
    Nat → Nat → PushFn α → (Nat → SlotContents α) → (Nat → SlotContents α) × Option BatchPanic
  | _, 0, pushPrevious, workers => assign pushPrevious workers
  | index, levels + 1, pushPrevious, workers =>
      let originalLen := (workers index).inbox.length
      let push : PushFn α := fun target job workers =>
        if target = index then .ok (modInbox workers index fun inbox => inbox ++ [job])
        else pushPrevious target job workers
      match withBatchInboxes assign (index + 1) levels push workers with
      | (workers, none) => (workers, none)
      | (workers, some payload) =>
          -- only remove this batch: older queued jobs must survive iterator failure
          (modInbox workers index fun inbox => inbox.take originalLen, some payload)

/-- {lit}`publish_batch`: the batch is assigned, and the sleepers that got jobs are
unparked. -/
def publishBatch (inner : ThreadPoolInner) (jobs : List α) (fails : Option Nat) (caller : Nat)
    (s : BatchState α) : BatchState α × Option BatchPanic :=
  let unreachable : PushFn α := fun _ _ _ => .error .unreachable
  match withBatchInboxes (fun push => assign inner caller fails push 0 jobs) 0 inner.workersLen
      unreachable s.workers with
  | (workers, some payload) => ({ s with workers := workers }, some payload)
  | (workers, none) =>
      let idle := fun index => (workers index).inbox.isEmpty
      ({ workers := workers
         sleepers := s.sleepers.filter fun index => idle index
         unparked := s.unparked ++ s.sleepers.filter fun index => !idle index }, none)

end Functions

/-! ## The chain of callbacks -/

section Chain

variable {α : Type} {workers : Nat → SlotContents α} {index target : Nat} {job : α}

/-- A job is appended to an inbox. -/
def place (workers : Nat → SlotContents α) (target : Nat) (job : α) : Nat → SlotContents α :=
  modInbox workers target fun inbox => inbox ++ [job]

/-- The callback reaches every inbox below {lit}`n`. -/
def Routes (n : Nat) (push : PushFn α) : Prop :=
  ∀ target, target < n → ∀ job workers, push target job workers = .ok (place workers target job)

@[simp] theorem modInbox_self (f : List α → List α) :
    modInbox workers index f index = ⟨(workers index).tasks, f (workers index).inbox⟩ := by
  simp [modInbox]

@[simp] theorem modInbox_ne {k : Nat} (h : k ≠ index) (f : List α → List α) :
    modInbox workers index f k = workers k := by
  simp [modInbox, h]

@[simp] theorem modInbox_tasks (k : Nat) (f : List α → List α) :
    (modInbox workers index f k).tasks = (workers k).tasks := by
  rcases eq_or_ne k index with rfl | hk
  · simp
  · simp [hk]

/-- A level adds its own inbox to the chain. -/
theorem Routes.level {push : PushFn α} (h : Routes index push) :
    Routes (index + 1) fun target job workers =>
      if target = index then .ok (modInbox workers index fun inbox => inbox ++ [job])
      else push target job workers := by
  intro target htarget job workers
  rcases Nat.lt_succ_iff_lt_or_eq.mp htarget with hlt | rfl
  · simp [hlt.ne, h target hlt]
  · simp [place]

/-- What a chain that reaches all inboxes makes of a batch: every job is appended to
its inbox in turn. -/
def assignAll (inner : ThreadPoolInner) (caller : Nat) :
    Nat → List α → (Nat → SlotContents α) → Nat → SlotContents α
  | _, [], workers => workers
  | index, job :: jobs, workers =>
      assignAll inner caller (index + 1) jobs (place workers (batchTarget inner caller index) job)

/-- The {lit}`assign` closure on a chain that reaches all targets. -/
theorem assign_routes {inner : ThreadPoolInner} {caller n : Nat} {fails : Option Nat}
    {push : PushFn α} (h : Routes n push) (htarget : ∀ index, batchTarget inner caller index < n)
    (jobs : List α) :
    assign inner caller fails push index jobs workers =
      (assignAll inner caller index jobs workers, fails.map .iterator) := by
  induction jobs generalizing index workers with
  | nil => rfl
  | cons job jobs ih =>
      rw [assign, h _ (htarget index)]
      exact ih

/-- The inboxes from {lit}`index` to {lit}`index + levels` are rolled back to the length
they had. -/
def rollBack (before workers : Nat → SlotContents α) (index levels : Nat) : Nat → SlotContents α :=
  fun k =>
    if index ≤ k ∧ k < index + levels then
      ⟨(workers k).tasks, (workers k).inbox.take (before k).inbox.length⟩
    else workers k

/-- The recursion runs {lit}`assign` once, on a chain that reaches all inboxes, and rolls
all of them back if that fails. -/
theorem withBatchInboxes_eq
    {assign : PushFn α → (Nat → SlotContents α) → (Nat → SlotContents α) × Option BatchPanic}
    {levels : Nat} {push : PushFn α} {result : (Nat → SlotContents α) × Option BatchPanic}
    (hpush : Routes index push)
    (hassign : ∀ chain, Routes (index + levels) chain → assign chain workers = result) :
    withBatchInboxes assign index levels push workers =
      if result.2 = none then result else (rollBack workers result.1 index levels, result.2) := by
  induction levels generalizing index push with
  | zero =>
      have hback : rollBack workers result.1 index 0 = result.1 := by
        funext k
        rw [rollBack, if_neg (by omega)]
      rw [withBatchInboxes, hassign push hpush, hback, ite_self]
  | succ levels ih =>
      have hrec := ih hpush.level fun chain hchain => hassign chain (by
        rwa [Nat.add_right_comm, Nat.add_assoc] at hchain)
      obtain ⟨after, failure⟩ := result
      rw [withBatchInboxes, hrec]
      cases failure with
      | none => rfl
      | some payload =>
          simp only [reduceCtorEq, if_false, Prod.mk.injEq, and_true]
          funext k
          rcases eq_or_ne k index with rfl | hk
          · simp [rollBack]
          · have hiff : (index + 1 ≤ k ∧ k < index + 1 + levels) ↔
                (index ≤ k ∧ k < index + (levels + 1)) := by omega
            simp only [modInbox_ne hk, rollBack, hiff]

end Chain

/-! ## Turns and targets -/

section Targets

variable {inner : ThreadPoolInner} {caller : Nat}

/-- How many inboxes get jobs. -/
def participants (inner : ThreadPoolInner) (caller : Nat) : Nat :=
  inner.totalWorker + if caller = inner.hostIndex then 1 else 0

/-- The inbox takes part in a batch: that of the host only if the host publishes. -/
def Participates (inner : ThreadPoolInner) (caller i : Nat) : Prop :=
  i ≤ inner.hostIndex ∧ (i = inner.hostIndex → caller = inner.hostIndex)

/-- The target of a turn. -/
theorem batchTarget_turn {turn : Nat} (h : turn < participants inner caller) :
    batchTarget inner caller turn =
      if turn = 0 then caller else if turn ≤ caller then turn - 1 else turn := by
  have hmod : turn % (inner.totalWorker + if caller = inner.hostIndex then 1 else 0) = turn :=
    Nat.mod_eq_of_lt h
  simp only [batchTarget, hmod]

/-- The target of a job depends on its turn only. -/
theorem batchTarget_mod (hn : 0 < participants inner caller) (index : Nat) :
    batchTarget inner caller (index % participants inner caller) =
      batchTarget inner caller index := by
  rw [batchTarget_turn (Nat.mod_lt index hn)]
  rfl

theorem participants_pos (hn : 0 < inner.totalWorker) : 0 < participants inner caller :=
  hn.trans_le (Nat.le_add_right _ _)

/-- The turns are in bijection with the participating slots. -/
theorem batchTarget_bijOn (hcaller : caller ≤ inner.hostIndex) :
    Set.BijOn (batchTarget inner caller) (Set.Iio (participants inner caller))
      {i | Participates inner caller i} := by
  have hp : participants inner caller = inner.hostIndex + if caller = inner.hostIndex then 1 else 0 :=
    rfl
  refine ⟨fun turn hturn => ?_, fun turn hturn turn' hturn' heq => ?_, fun i hi => ?_⟩
  · rw [Set.mem_Iio] at hturn
    rw [Set.mem_ofPred_eq, Participates, batchTarget_turn hturn]
    split at hp <;> split <;> try split
    all_goals omega
  · rw [Set.mem_Iio] at hturn hturn'
    rw [batchTarget_turn hturn, batchTarget_turn hturn'] at heq
    split at heq <;> split at heq <;> try split at heq
    all_goals try split at heq
    all_goals omega
  · obtain ⟨hle, hhost⟩ := hi
    have hturn : ∃ turn, turn < participants inner caller ∧
        (if turn = 0 then caller else if turn ≤ caller then turn - 1 else turn) = i := by
      rw [hp]
      rcases lt_trichotomy i caller with hlt | rfl | hgt
      · refine ⟨i + 1, ?_, by simp [Nat.succ_le_of_lt hlt]⟩
        split <;> omega
      · refine ⟨0, ?_, rfl⟩
        split <;> omega
      · refine ⟨i, ?_, ?_⟩
        · split <;> omega
        · rw [if_neg (by omega), if_neg (by omega)]
    obtain ⟨turn, hlt, heq⟩ := hturn
    exact ⟨turn, hlt, (batchTarget_turn hlt).trans heq⟩

/-- Every job goes to a registered inbox. -/
theorem batchTarget_lt (hn : 0 < inner.totalWorker) (hcaller : caller ≤ inner.hostIndex)
    (index : Nat) : batchTarget inner caller index < inner.workersLen := by
  have hp : 0 < participants inner caller := participants_pos hn
  have hmem := (batchTarget_bijOn hcaller).mapsTo (Set.mem_Iio.mpr (Nat.mod_lt index hp))
  rw [batchTarget_mod hp] at hmem
  exact Nat.lt_succ_of_le hmem.1

/-- Two jobs go to the same inbox exactly if they have the same turn. -/
theorem batchTarget_eq_iff (hn : 0 < inner.totalWorker) (hcaller : caller ≤ inner.hostIndex)
    {turn : Nat} (hturn : turn < participants inner caller) (index : Nat) :
    batchTarget inner caller index = batchTarget inner caller turn ↔
      index % participants inner caller = turn := by
  rw [← batchTarget_mod (participants_pos hn)]
  exact (batchTarget_bijOn hcaller).injOn.eq_iff
    (Set.mem_Iio.mpr (Nat.mod_lt index (participants_pos hn))) hturn

end Targets

/-! ## What every inbox gets -/

section Shares

variable {α : Type} {inner : ThreadPoolInner} {caller : Nat}

/-- The jobs of a batch whose index has residue {lit}`r`, in order. -/
def residueClass (p r : Nat) (jobs : List α) : List α :=
  (jobs.zipIdx.filter fun x => x.2 % p = r).map Prod.fst

/-- How many jobs a residue class has. -/
theorem length_residueClass {p r : Nat} (hr : r < p) (jobs : List α) :
    (residueClass p r jobs).length =
      jobs.length / p + if r < jobs.length % p then 1 else 0 := by
  have hp : 0 < p := r.zero_le.trans_lt hr
  have hcount : (residueClass p r jobs).length = jobs.length.count (· ≡ r [MOD p]) := by
    rw [residueClass, List.length_map, ← List.countP_eq_length_filter, Nat.count,
      List.range_eq_range', ← List.zipIdx_map_snd 0 jobs, List.countP_map]
    refine List.countP_congr fun x _ => ?_
    simp [Nat.ModEq, Nat.mod_eq_of_lt hr]
  rw [hcount, Nat.count_modEq_card _ hp, Nat.mod_eq_of_lt hr]

/-- Rounding up. -/
theorem div_add_ite {n p : Nat} (hp : 0 < p) :
    (n / p + if 0 < n % p then 1 else 0) = (n + p - 1) / p := by
  have hn := Nat.div_add_mod n p
  have hlt := Nat.mod_lt n hp
  generalize n / p = q at hn ⊢
  generalize n % p = r at hn hlt ⊢
  subst hn
  split
  · have hsplit : p * q + r + p - 1 = p * (q + 1) + (r - 1) := by
      rw [Nat.mul_succ]
      omega
    rw [hsplit, Nat.mul_add_div hp, Nat.div_eq_of_lt (by omega), Nat.add_zero]
  · have hsplit : p * q + r + p - 1 = p * q + (p - 1) := by omega
    rw [hsplit, Nat.mul_add_div hp, Nat.div_eq_of_lt (by omega)]

/-- The assignment touches no local deque. -/
theorem assignAll_tasks (jobs : List α) (index : Nat) (workers : Nat → SlotContents α) (k : Nat) :
    (assignAll inner caller index jobs workers k).tasks = (workers k).tasks := by
  induction jobs generalizing index workers with
  | nil => rfl
  | cons job jobs ih =>
      rw [assignAll, ih]
      exact modInbox_tasks k _

/-- Every inbox gets the jobs it is the target of, after what it held and in order. -/
theorem assignAll_inbox (jobs : List α) (index : Nat) (workers : Nat → SlotContents α) (k : Nat) :
    (assignAll inner caller index jobs workers k).inbox =
      (workers k).inbox ++
        ((jobs.zipIdx index).filter fun x => batchTarget inner caller x.2 = k).map Prod.fst := by
  induction jobs generalizing index workers with
  | nil => simp [assignAll]
  | cons job jobs ih =>
      rw [assignAll, ih, List.zipIdx_cons, List.filter_cons]
      rcases eq_or_ne (batchTarget inner caller index) k with rfl | hk
      · simp [place]
      · simp [place, hk, hk.symm]

/-- An inbox that is not the target of any job stays as it is. -/
theorem assignAll_of_ne (jobs : List α) (index : Nat) (workers : Nat → SlotContents α) {k : Nat}
    (hk : ∀ index, batchTarget inner caller index ≠ k) :
    assignAll inner caller index jobs workers k = workers k := by
  ext1
  · exact assignAll_tasks jobs index workers k
  · simp [assignAll_inbox, hk]

/-- Rolling back takes away the whole batch and nothing else. -/
theorem rollBack_assignAll (hn : 0 < inner.totalWorker) (hcaller : caller ≤ inner.hostIndex)
    (jobs : List α) (workers : Nat → SlotContents α) :
    rollBack workers (assignAll inner caller 0 jobs workers) 0 inner.workersLen = workers := by
  funext k
  by_cases hk : k < inner.workersLen
  · rw [rollBack, if_pos ⟨k.zero_le, by rwa [Nat.zero_add]⟩, assignAll_tasks, assignAll_inbox,
      List.take_left]
  · rw [rollBack, if_neg fun h => hk (by simpa using h.2)]
    exact assignAll_of_ne jobs 0 workers fun index heq => hk (heq ▸ batchTarget_lt hn hcaller index)

/-- The recursion of {lit}`publish_batch`: a batch is assigned as a whole, or all is as
before. -/
theorem withBatchInboxes_assign (hn : 0 < inner.totalWorker) (hcaller : caller ≤ inner.hostIndex)
    (jobs : List α) (fails : Option Nat) (workers : Nat → SlotContents α) (push : PushFn α) :
    withBatchInboxes (fun chain => assign inner caller fails chain 0 jobs) 0 inner.workersLen push
        workers =
      (if fails = none then assignAll inner caller 0 jobs workers else workers,
        fails.map .iterator) := by
  have htarget : ∀ index, batchTarget inner caller index < 0 + inner.workersLen := by
    intro index
    rw [Nat.zero_add]
    exact batchTarget_lt hn hcaller index
  rw [withBatchInboxes_eq (fun target h => (Nat.not_lt_zero target h).elim)
    fun chain hroutes => assign_routes hroutes htarget jobs]
  cases fails with
  | none => rfl
  | some payload => simp [rollBack_assignAll hn hcaller]

/-- A batch whose iterator panics leaves everything as it was, and rethrows the
iterator's payload. -/
theorem publishBatch_fails (hn : 0 < inner.totalWorker) (hcaller : caller ≤ inner.hostIndex)
    (jobs : List α) (payload : Nat) (s : BatchState α) :
    publishBatch inner jobs (some payload) caller s = (s, some (.iterator payload)) := by
  simp [publishBatch, withBatchInboxes_assign hn hcaller]

/-- A batch whose iterator ends is assigned as a whole. -/
theorem publishBatch_ok (hn : 0 < inner.totalWorker) (hcaller : caller ≤ inner.hostIndex)
    (jobs : List α) (s : BatchState α) :
    (publishBatch inner jobs none caller s).2 = none ∧
      (publishBatch inner jobs none caller s).1.workers =
        assignAll inner caller 0 jobs s.workers := by
  simp [publishBatch, withBatchInboxes_assign hn hcaller]

/-- How many jobs a batch brings to an inbox. -/
def received (before after : BatchState α) (i : Nat) : Nat :=
  (after.workers i).inbox.length - (before.workers i).inbox.length

/-- The participating inbox of a turn gets the jobs with that turn. -/
theorem publishBatch_inbox (hn : 0 < inner.totalWorker) (hcaller : caller ≤ inner.hostIndex)
    (jobs : List α) (s : BatchState α) {turn : Nat} (hturn : turn < participants inner caller) :
    ((publishBatch inner jobs none caller s).1.workers (batchTarget inner caller turn)).inbox =
      (s.workers (batchTarget inner caller turn)).inbox ++
        residueClass (participants inner caller) turn jobs := by
  rw [(publishBatch_ok hn hcaller jobs s).2, assignAll_inbox, residueClass]
  simp only [batchTarget_eq_iff hn hcaller hturn]

/-- How many jobs the participating inbox of a turn gets. -/
theorem received_turn (hn : 0 < inner.totalWorker) (hcaller : caller ≤ inner.hostIndex)
    (jobs : List α) (s : BatchState α) {turn : Nat} (hturn : turn < participants inner caller) :
    received s (publishBatch inner jobs none caller s).1 (batchTarget inner caller turn) =
      jobs.length / participants inner caller +
        if turn < jobs.length % participants inner caller then 1 else 0 := by
  rw [received, publishBatch_inbox hn hcaller jobs s hturn, List.length_append,
    Nat.add_sub_cancel_left, length_residueClass hturn]

/-- The assignment of a batch.  Its iterator's panic is the only one that comes out of
the chain of callbacks.  Turns and participating slots are in bijection, and turn zero
is that of the caller.  Every participating inbox gets, after its old content, the jobs
of one residue class in order, so that any two of them get the same number of jobs up to
one, and the caller gets the most.  Nothing else changes. -/
theorem publish_batch_assignment (jobs : List α) (s : BatchState α) (hn : 1 ≤ inner.totalWorker)
    (hcaller : caller ≤ inner.hostIndex) :
    let p := participants inner caller
    let after := (publishBatch inner jobs none caller s).1
    (∀ fails, (publishBatch inner jobs fails caller s).2 = fails.map .iterator) ∧
      p = (if caller = inner.hostIndex then inner.totalWorker + 1 else inner.totalWorker) ∧
      Set.BijOn (batchTarget inner caller) (Set.Iio p) {i | Participates inner caller i} ∧
      batchTarget inner caller 0 = caller ∧
      (∀ index, batchTarget inner caller index = batchTarget inner caller (index % p)) ∧
      (∀ turn, turn < p →
        (after.workers (batchTarget inner caller turn)).inbox =
          (s.workers (batchTarget inner caller turn)).inbox ++ residueClass p turn jobs) ∧
      (∀ i k, Participates inner caller i → Participates inner caller k →
        received s after i ≤ received s after k + 1) ∧
      received s after caller = (jobs.length + p - 1) / p ∧
      (∀ i, ¬Participates inner caller i → after.workers i = s.workers i) ∧
      ∀ i, (after.workers i).tasks = (s.workers i).tasks := by
  have hp : 0 < participants inner caller := participants_pos hn
  have hbij := batchTarget_bijOn hcaller
  have hzero : batchTarget inner caller 0 = caller := batchTarget_turn hp
  refine ⟨?_, ?_, hbij, hzero, fun index => (batchTarget_mod hp index).symm,
    fun turn hturn => publishBatch_inbox hn hcaller jobs s hturn, ?_, ?_, ?_, ?_⟩
  · intro fails
    cases fails with
    | none => exact (publishBatch_ok hn hcaller jobs s).1
    | some payload => rw [publishBatch_fails hn hcaller]; rfl
  · unfold participants
    split <;> rfl
  · intro i k hi hk
    obtain ⟨turn, hturn, rfl⟩ := hbij.surjOn hi
    obtain ⟨turn', hturn', rfl⟩ := hbij.surjOn hk
    rw [received_turn hn hcaller jobs s hturn, received_turn hn hcaller jobs s hturn']
    split <;> omega
  · have hcount := received_turn hn hcaller jobs s hp
    rw [hzero] at hcount
    exact hcount.trans (div_add_ite hp)
  · intro i hi
    rw [(publishBatch_ok hn hcaller jobs s).2]
    refine assignAll_of_ne jobs 0 s.workers fun index heq => hi ?_
    rw [← heq, ← batchTarget_mod hp]
    exact hbij.mapsTo (Set.mem_Iio.mpr (Nat.mod_lt index hp))
  · intro i
    rw [(publishBatch_ok hn hcaller jobs s).2, assignAll_tasks]

/-- A batch of five, published by the host of a pool with two workers. -/
theorem batch_of_five :
    let inner := ThreadPoolInner.new 2 1 none
    let s : BatchState Nat := ⟨fun _ => ⟨[], [9]⟩, [], []⟩
    ((publishBatch inner [10, 11, 12, 13, 14] none 2 s).1.workers 0).inbox = [9, 11, 14] ∧
      received s (publishBatch inner [10, 11, 12, 13, 14] none 2 s).1 2 = 2 := by
  intro inner s
  obtain ⟨-, -, -, -, -, hinbox, -, hcaller, -, -⟩ :=
    publish_batch_assignment [10, 11, 12, 13, 14] s (show 1 ≤ inner.totalWorker by decide)
      (show 2 ≤ inner.hostIndex by decide)
  have htarget : batchTarget inner 2 1 = 0 := by decide
  have hfirst := hinbox 1 (by decide)
  rw [htarget] at hfirst
  exact ⟨hfirst.trans (by decide), hcaller.trans (by decide)⟩

end Shares

/-! ## The same step in the pool -/

/-- What the worker slots of a pool hold. -/
def Mem.contents (m : Mem) (p : Nat) : Nat → SlotContents Nat :=
  fun i => ⟨(m.queues.deque (.slot p i)).unclaimed, (m.queues.queue (.inbox p i)).elements⟩

/-- In the pool a job of a batch is placed like this. -/
theorem assignStep_contents {m m' : Mem} {p s caller index j : Nat} {fs : List Frame}
    (h : assignStep m p s caller index (.place j) = some (m', fs)) :
    m'.contents p = place (m.contents p) (batchTarget (m.pools p) caller index) j := by
  cases h
  funext k
  rcases eq_or_ne k (batchTarget (m.pools p) caller index) with rfl | hk
  · simp [Mem.contents, place, Queues.setQueue]
  · simp [Mem.contents, place, Queues.setQueue, hk]

end XynokConcurrency
