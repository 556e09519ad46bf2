import XynokConcurrency.Lib.LockOrder
import XynokConcurrency.ThreadPool.Activity

/-!
# Who holds the locks

Three kinds of spin locks guard the batching queues of a pool: that of the shared
queue, those of the inboxes and that of the sleepers.  Every critical section is a
stretch of program points of one frame or of one queue operation, so the locks a
thread holds can be read off its stack.  A queue is created afresh only while nobody
can have it locked.

Main results:

- Theorem {lit}`Frame.step_locks`: a step stays in its critical section, or enters
  one, or leaves it.
- Theorem {lit}`holdsExactly`: the locks that name a thread are those of the critical
  sections it is in.

Source: {lit}`thread_pool/shared.rs`, {lit}`utils/queue_batching.rs`.
-/

namespace XynokConcurrency

/-! ## Locks -/

/-- A lock of a batching queue. -/
inductive LockId
  | queue (q : QueueId)
  | sleepers (p : Nat)
deriving DecidableEq, Repr

/-- The thread that has set a lock. -/
def Mem.lockedBy (m : Mem) : LockId → Option Tid
  | .queue q => (m.queues.queue q).locked
  | .sleepers p => (m.pools p).sleepers.locked

/-- The lock a frame is in a critical section of. -/
def Frame.holds : Frame → Option LockId
  | .wake p _ pc => match pc with
      | .lock | .unpark _ => none
      | _ => some (.sleepers p)
  | .inboxes p _ _ index pc => match pc with
      | .enter | .lock => none
      | _ => some (.queue (.inbox p index))
  | .publish p _ pc => match pc with
      | .assigning | .passLock => none
      | _ => some (.sleepers p)
  | .sleep p _ pc => match pc with
      | .lock | .park | .relock => none
      | _ => some (.sleepers p)
  | _ => none

/-- The locks of the critical sections a thread is in. -/
def Thread.held (th : Thread) : List LockId :=
  (th.op.holds.map .queue).toList ++ th.stack.filterMap Frame.holds

/-- The locks of the queues a frame may create afresh. -/
def Frame.Renews (m : Mem) : Frame → LockId → Prop
  | .user _, l => l = .queue (.tasks m.nextPool) ∨ l = .sleepers m.nextPool
  | .newPool p _, l => ∃ i, l = .queue (.inbox p i)
  | .scope _ s _, l => l = .queue (.helperInbox s)
  | _, _ => False

/-! ## Locks and the memory -/

@[simp] theorem QueueBatching.new_locked {τ α : Type} :
    (QueueBatching.new : QueueBatching τ α).locked = none := rfl

namespace Mem

variable {m m' : Mem} {p s j : Nat} {q : QueueId} {t : Tid}

/-- The locks are those of the batching queues and of the pools. -/
theorem lockedBy_congr (hq : m'.queues.queue = m.queues.queue) (hp : m'.pools = m.pools) :
    m'.lockedBy = m.lockedBy := by
  funext l
  cases l <;> simp only [lockedBy, hq, hp]

@[simp] theorem lockedBy_modScope (f : Scope → Scope) :
    (m.modScope s f).lockedBy = m.lockedBy := lockedBy_congr rfl rfl

@[simp] theorem lockedBy_modJob (f : Job → Job) : (m.modJob j f).lockedBy = m.lockedBy :=
  lockedBy_congr rfl rfl

@[simp] theorem lockedBy_setToken (b : Bool) : (m.setToken t b).lockedBy = m.lockedBy :=
  lockedBy_congr rfl rfl

@[simp] theorem lockedBy_setDeque (d : DequeId) (w : WorkerQueue Nat) :
    (m.setDeque d w).lockedBy = m.lockedBy := lockedBy_congr rfl rfl

@[simp] theorem lockedBy_newJob : (newJob m s).lockedBy = m.lockedBy := lockedBy_congr rfl rfl

@[simp] theorem lockedBy_dropTicket : (dropTicket m s j).lockedBy = m.lockedBy :=
  lockedBy_congr rfl rfl

/-- A batching queue carries its own lock. -/
theorem lockedBy_setQueue (b : QueueBatching Tid Nat) :
    (m.setQueue q b).lockedBy = Function.update m.lockedBy (.queue q) b.locked := by
  funext l
  rcases l with r | p
  · rcases eq_or_ne r q with rfl | hr
    · simp [lockedBy, Queues.setQueue]
    · simp [lockedBy, Queues.setQueue, hr]
  · simp [lockedBy]

/-- The sleepers carry their own lock. -/
theorem lockedBy_setSleepers (b : QueueBatching Tid Nat) :
    (m.setSleepers p b).lockedBy = Function.update m.lockedBy (.sleepers p) b.locked := by
  funext l
  rcases l with q | r
  · simp [lockedBy, setSleepers]
  · rcases eq_or_ne r p with rfl | hr
    · simp [lockedBy, setSleepers]
    · simp [lockedBy, setSleepers, hr]

/-- A batching queue may change while it keeps its lock. -/
theorem lockedBy_keepQueue {b : QueueBatching Tid Nat} (hb : b.locked = m.lockedBy (.queue q)) :
    (m.setQueue q b).lockedBy = m.lockedBy := by
  rw [lockedBy_setQueue, hb, Function.update_eq_self]

/-- The sleepers may change while they keep their lock. -/
theorem lockedBy_keepSleepers {b : QueueBatching Tid Nat} (hb : b.locked = m.lockedBy (.sleepers p)) :
    (m.setSleepers p b).lockedBy = m.lockedBy := by
  rw [lockedBy_setSleepers, hb, Function.update_eq_self]

/-- A pool may change while its sleepers keep their lock. -/
theorem lockedBy_modPool {f : ThreadPoolInner → ThreadPoolInner}
    (hf : (f (m.pools p)).sleepers.locked = (m.pools p).sleepers.locked) :
    (m.modPool p f).lockedBy = m.lockedBy := by
  funext l
  rcases l with q | r
  · rfl
  · rcases eq_or_ne r p with rfl | hr
    · simp [lockedBy, hf]
    · simp [lockedBy, hr]

end Mem

/-! ## Critical sections of frames -/

/-- What a step of a frame does to the locks and to its critical section. -/
abbrev Frame.LockStep (t : Tid) (f : Frame) (m m' : Mem) (fs : List Frame) : Prop :=
  XynokConcurrency.LockStep t m.lockedBy m'.lockedBy f.holds.toList (fs.filterMap Frame.holds)

section Steps

variable {t u : Tid} {f f' : Frame} {m m' : Mem} {fs : List Frame} {p s j i : Nat} {l : LockId}

namespace Frame.LockStep

/-- No lock changes, and neither does the critical section. -/
theorem stay (hm : m'.lockedBy = m.lockedBy) (hf : fs.filterMap Frame.holds = f.holds.toList) :
    f.LockStep t m m' fs :=
  .keep hm (.of_eq hf)

theorem takeQueue {q : QueueId} (hfree : (m.queues.queue q).locked = none) (hf : f.holds = none)
    (hfs : fs.filterMap Frame.holds = [.queue q]) :
    f.LockStep t m (m.setQueue q { m.queues.queue q with locked := some t }) fs :=
  .take (.queue q) hfree (Mem.lockedBy_setQueue _) (by rw [hf, hfs]; rfl)

theorem giveQueue {q : QueueId} (hf : f.holds = some (.queue q))
    (hfs : fs.filterMap Frame.holds = []) :
    f.LockStep t m (m.setQueue q { m.queues.queue q with locked := none }) fs :=
  .give (.queue q) (Mem.lockedBy_setQueue _) (by rw [hf, hfs]; rfl)

theorem takeSleepers (hfree : (m.pools p).sleepers.locked = none) (hf : f.holds = none)
    (hfs : fs.filterMap Frame.holds = [.sleepers p]) :
    f.LockStep t m (m.setSleepers p { (m.pools p).sleepers with locked := some t }) fs :=
  .take (.sleepers p) hfree (Mem.lockedBy_setSleepers _) (by rw [hf, hfs]; rfl)

theorem giveSleepers (hf : f.holds = some (.sleepers p)) (hfs : fs.filterMap Frame.holds = []) :
    f.LockStep t m (m.setSleepers p { (m.pools p).sleepers with locked := none }) fs :=
  .give (.sleepers p) (Mem.lockedBy_setSleepers _) (by rw [hf, hfs]; rfl)

/-- What else a step changes does not matter. -/
theorem congr {m'' : Mem} (h : f.LockStep t m m' fs) (hm : m''.lockedBy = m'.lockedBy) :
    f.LockStep t m m'' fs := by
  rw [Frame.LockStep, hm]
  exact h

end Frame.LockStep

theorem wakeStep_locks {pc : WakePc} (h : wakeStep t m p j pc = some (m', fs)) :
    Frame.LockStep t (.wake p j pc) m m' fs := by
  cases pc <;> simp only [wakeStep] at h <;> (try split at h) <;> cases h
  · exact .takeSleepers ‹_› rfl rfl
  · exact .stay ((Mem.lockedBy_modJob _).trans (Mem.lockedBy_keepSleepers rfl)) rfl
  · exact .stay (Mem.lockedBy_keepSleepers rfl) rfl
  · exact .giveSleepers rfl rfl
  · exact .congr (.giveSleepers rfl rfl) (Mem.lockedBy_modJob _)
  · exact .stay (by simp) rfl

theorem inboxesStep_locks {caller index : Nat} {pc : InboxPc}
    (h : inboxesStep t m p s caller index pc = some (m', fs)) :
    Frame.LockStep t (.inboxes p s caller index pc) m m' fs := by
  cases pc <;> simp only [inboxesStep] at h <;> (try split at h) <;> cases h
  · exact .stay rfl rfl
  · exact .stay rfl rfl
  · exact .takeQueue ‹_› rfl rfl
  · exact .stay rfl rfl
  · exact .stay (Mem.lockedBy_keepQueue rfl) rfl
  · exact .stay (Mem.lockedBy_keepQueue rfl) rfl
  · exact .giveQueue rfl rfl

theorem publishStep_locks {pc : PublishPc} (h : publishStep t m p s pc = some (m', fs)) :
    Frame.LockStep t (.publish p s pc) m m' fs := by
  rcases pc with _ | _ | ⟨kept, _ | ⟨i, rest⟩⟩ | _ | _ | _ <;> simp only [publishStep] at h <;>
    (try split at h) <;> cases h
  · exact .takeSleepers ‹_› rfl rfl
  · exact .stay (Mem.lockedBy_keepSleepers rfl) rfl
  · exact .stay rfl rfl
  · exact .stay rfl rfl
  · exact .stay (by simp) rfl
  · exact .stay (Mem.lockedBy_keepSleepers rfl) rfl
  · exact .congr (.giveSleepers rfl rfl) (Mem.lockedBy_modScope _)

theorem sleepStep_locks {spurious : Bool} {pc : SleepPc}
    (h : sleepStep t spurious m p i pc = some (m', fs)) :
    Frame.LockStep t (.sleep p i pc) m m' fs := by
  cases pc <;> simp only [sleepStep] at h <;> (repeat' split at h) <;> cases h <;>
    first
      | exact .takeSleepers ‹_› rfl rfl
      | exact .giveSleepers rfl rfl
      | exact .stay rfl rfl
      | exact .stay (Mem.lockedBy_keepSleepers rfl) rfl

/-- User code makes the queue and the sleepers of a new pool. -/
theorem userStep_lockedBy {c : UserCode} {a : UserAct} (h : userStep t m c a = some (m', fs))
    (hnew : ∀ l, (Frame.user c).Renews m l → m.lockedBy l = none) : m'.lockedBy = m.lockedBy := by
  have hborrow : ∀ q, (m.modPool q fun inner =>
      { inner with callers := t :: inner.callers }).lockedBy = m.lockedBy :=
    fun q => Mem.lockedBy_modPool rfl
  have hcall : ∀ fs', userCall t m a = some (m', fs') → m'.lockedBy = m.lockedBy := by
    intro fs' hc
    cases a <;> simp only [userCall, enterScope] at hc <;> (try split at hc) <;> cases hc
    case push | scope | runBatch => exact (Mem.lockedBy_congr rfl rfl).trans (hborrow _)
    case spawn => exact Mem.lockedBy_modScope _
    case newPool cfg cores _ =>
      funext l
      rcases l with q | p
      · rcases eq_or_ne q (.tasks m.nextPool) with rfl | hq
        · rw [hnew _ (.inl rfl)]
          simp [Mem.lockedBy, Queues.setQueue]
        · simp [Mem.lockedBy, Queues.setQueue, hq]
      · rcases eq_or_ne p m.nextPool with rfl | hp
        · rw [hnew _ (.inr rfl)]
          simp [Mem.lockedBy, ThreadPoolInner.new]
        · simp [Mem.lockedBy, hp]
    case dropPool => exact Mem.lockedBy_modPool rfl
    all_goals rfl
  have hend : ∀ o, userEnd m c o = some (m', fs) → m'.lockedBy = m.lockedBy := by
    intro o he
    unfold userEnd at he
    split at he <;> (try split at he) <;> cases he <;> rfl
  unfold userStep at h
  split at h
  · split at h <;> exact hend _ h
  · split at h
    · exact hend _ h
    · cases h
  · exact hend _ h
  · split at h
    · rename_i hc
      cases h
      exact hcall _ hc
    · cases h

/-- User code leaves frames that are in no critical section. -/
theorem userStep_holds {c : UserCode} {a : UserAct} (h : userStep t m c a = some (m', fs)) :
    fs.filterMap Frame.holds = [] := by
  refine List.filterMap_eq_nil_iff.mpr fun g hg => ?_
  have htag := (userStep_shape h).1 g hg
  cases g <;> first | rfl | simp [Frame.tag, FrameTag.next] at htag

/-- A step of a frame stays in its critical section, or enters one, or leaves it. -/
theorem Frame.step_locks {c : Choice} {ctx ctx' : Context}
    (hs : f.step t c m ctx = some (m', ctx', fs))
    (hnew : ∀ l, f.Renews m l → m.lockedBy l = none) : f.LockStep t m m' fs := by
  cases f <;> simp only [Frame.step, keep_eq, keepMem_eq] at hs
  case user u =>
    split at hs
    · obtain ⟨hs, -⟩ := keep_eq.mp hs
      exact .stay (userStep_lockedBy hs hnew) (userStep_holds hs)
    · cases hs
  case wake => exact wakeStep_locks hs.1
  case inboxes => exact inboxesStep_locks hs.1
  case publish => exact publishStep_locks hs.1
  case sleep => exact sleepStep_locks hs.1
  case callDone =>
    cases hs
    exact .stay (Mem.lockedBy_modPool rfl) rfl
  case spawnDone =>
    cases hs
    exact .stay (Mem.lockedBy_modScope _) rfl
  case spawn pc =>
    obtain ⟨hs, -⟩ := hs
    cases pc <;> simp only [spawnStep] at hs <;> (try split at hs) <;> cases hs
    · exact .stay Mem.lockedBy_newJob rfl
    · exact .stay rfl rfl
  case scope p s pc =>
    cases pc <;> simp only [scopeStep] at hs <;> (repeat' split at hs) <;> cases hs <;>
      refine .stay ?_ rfl <;>
      first
        | rfl
        | exact Mem.lockedBy_modScope _
        | exact Mem.lockedBy_modPool rfl
        | refine (Mem.lockedBy_keepQueue ?_).trans (Mem.lockedBy_setDeque _ _)
          first | rfl | exact (hnew _ rfl).symm
  case task pc =>
    obtain ⟨hs, -⟩ := hs
    cases pc <;> simp only [taskStep] at hs <;> (try split at hs) <;> cases hs <;>
      refine .stay ?_ rfl <;> simp
  case assign pc =>
    obtain ⟨hs, -⟩ := hs
    cases pc <;> simp only [assignStep] at hs <;> cases hs
    · exact .stay rfl rfl
    · exact .stay Mem.lockedBy_newJob rfl
    · exact .stay (Mem.lockedBy_keepQueue rfl) rfl
  case loop pc =>
    cases pc <;> simp only [loopStep] at hs <;> (try split at hs) <;> cases hs <;>
      refine .stay ?_ rfl <;>
      first | rfl | exact Mem.lockedBy_modPool rfl
  case newPool p pc =>
    obtain ⟨hs, -⟩ := hs
    have hworker : ∀ i h, (newWorker m p i h).lockedBy = m.lockedBy := fun i h =>
      (Mem.lockedBy_keepQueue (hnew _ ⟨i, rfl⟩).symm).trans (Mem.lockedBy_setDeque _ _)
    cases pc <;> simp only [newPoolStep] at hs <;> (repeat' split at hs) <;> cases hs <;>
      refine .stay ?_ rfl <;>
      first
        | rfl
        | exact Mem.lockedBy_modPool rfl
        | exact hworker _ _
        | exact (Mem.lockedBy_modPool rfl).trans (hworker _ _)
  case shutdown pc =>
    obtain ⟨hs, -⟩ := hs
    cases pc <;> simp only [shutdownStep] at hs <;> (repeat' split at hs) <;> cases hs <;>
      refine .stay ?_ rfl <;>
      first
        | rfl
        | exact Mem.lockedBy_setToken _
        | exact Mem.lockedBy_modPool rfl
        | exact Mem.lockedBy_keepQueue rfl
  case dropPool pc =>
    obtain ⟨hs, -⟩ := hs
    cases pc <;> simp only [dropPoolStep] at hs <;> cases hs <;> refine .stay ?_ rfl <;>
      first | exact Mem.lockedBy_keepQueue rfl | exact Mem.lockedBy_modPool rfl
  case dropJobs js =>
    obtain ⟨hs, -⟩ := hs
    cases js <;> simp only [dropJobsStep] at hs <;> (try split at hs) <;> cases hs <;>
      refine .stay ?_ rfl <;> simp
  case dropEnv =>
    cases hs
    exact .stay (by simp) rfl
  case runUntil pc =>
    obtain ⟨hs, rfl, -⟩ := hs
    cases pc <;> simp only [runUntilStep] at hs <;> (try split at hs) <;> cases hs <;>
      exact .stay rfl rfl
  case steal pc =>
    obtain ⟨hs, rfl, -⟩ := hs
    cases pc <;> simp only [stealStep] at hs <;> (repeat' split at hs) <;> cases hs <;>
      exact .stay rfl rfl
  case batch pc =>
    obtain ⟨hs, rfl, -⟩ := hs
    cases pc <;> simp only [batchStep] at hs <;> cases hs
    exact .stay rfl rfl
  all_goals cases hs

/-- Starting a queue operation. -/
theorem Frame.call_holds {ctx : Context} {q : QueueCall DequeId QueueId Nat}
    (h : f.call m ctx = some (q, f')) : f'.holds = f.holds := by
  unfold Frame.call at h
  split at h <;> (try split at h) <;> cases h <;> rfl

/-- Taking the result of a queue operation. -/
theorem Frame.answer_holds (f : Frame) (r : QueueRes Nat) :
    (f.answer r).filterMap Frame.holds = f.holds.toList := by
  unfold Frame.answer
  split <;> (try split) <;> rfl

/-- Taking the result of a call. -/
theorem Frame.resume_holds (f : Frame) (o : Outcome) :
    (f.resume o).filterMap Frame.holds = f.holds.toList := by
  unfold Frame.resume
  split <;> (try split) <;> rfl

end Steps

/-! ## Critical sections of operations -/

section Ticks

variable {δ κ τ α : Type} [DecidableEq κ] {t : τ} {m m' : Queues δ κ τ α}

/-- The access is one on the lock of a batching queue. -/
def QInstr.onLock {β : Type} : QInstr δ κ α β → Bool
  | .lock _ _ | .tryLock _ _ | .unlock _ _ => true
  | _ => false

/-- Every other access leaves the locks as they are. -/
theorem QInstr.exec_locked [DecidableEq δ] {β : Type} {i : QInstr δ κ α β} {b : β}
    (hx : i.exec t m = some (m', b)) (hi : i.onLock = false) :
    (fun k => (m'.queue k).locked) = fun k => (m.queue k).locked := by
  have hset : ∀ r c, c.locked = (m.queue r).locked →
      (fun k => ((m.setQueue r c).queue k).locked) = fun k => (m.queue k).locked := by
    intro r c hc
    funext k
    rcases eq_or_ne k r with rfl | hne
    · simp [Queues.setQueue, hc]
    · simp [Queues.setQueue, hne]
  cases i <;> simp only [QInstr.exec] at hx <;> (try split at hx) <;> cases hx <;>
    first
      | rfl
      | exact hset _ _ rfl
      | exact Bool.noConfusion hi

/-- The locks after one of them was set or cleared. -/
theorem Queues.setQueue_locked (q : κ) (b : QueueBatching τ α) :
    (fun k => ((m.setQueue q b).queue k).locked) =
      Function.update (fun k => (m.queue k).locked) q b.locked := by
  funext k
  rcases eq_or_ne k q with rfl | hne
  · simp [Queues.setQueue]
  · simp [Queues.setQueue, hne]

omit [DecidableEq κ] in
/-- The copying loop stays in the critical section. -/
theorem Op.holds_drainLoop (d : δ) (src : κ) (moved offset : Nat) (c : CursorData) :
    (Op.drainLoop d src moved offset c : Op δ κ α).holds = some src := by
  unfold Op.drainLoop
  split <;> rfl

/-- What the next access of an operation does to the locks and to its critical
section. -/
theorem Op.tick_locks [DecidableEq δ] {o o' : Op δ κ α} {spurious : Bool}
    {i : QInstr δ κ α (Op δ κ α)} (hi : o.instr spurious = some i) (hx : i.exec t m = some (m', o')) :
    LockStep t (fun k => (m.queue k).locked) (fun k => (m'.queue k).locked) o.holds.toList
      o'.holds.toList := by
  have hkeep : i.onLock = false → o'.holds = o.holds →
      LockStep t (fun k => (m.queue k).locked) (fun k => (m'.queue k).locked) o.holds.toList
        o'.holds.toList :=
    fun hon hheld => .keep (i.exec_locked hx hon) (.of_eq (congrArg _ hheld))
  cases o <;> simp only [Op.instr] at hi
  case drainLock | queuePushLock | queuePopLock =>
    cases hi
    simp only [QInstr.exec] at hx
    split at hx <;> cases hx
    exact .take _ ‹_› (Queues.setQueue_locked _ _) (.refl _)
  case queueTryPopLock q =>
    cases hi
    simp only [QInstr.exec] at hx
    split at hx <;> cases hx
    · exact .take _ ‹_› (Queues.setQueue_locked _ _) (.refl _)
    · exact .keep rfl (.refl _)
  case drainUnlock d src moved c =>
    cases hi
    cases hx
    refine .give _ (Queues.setQueue_locked _ _) (.of_eq ?_)
    split <;> rfl
  case queuePushUnlock | queuePopUnlock =>
    cases hi
    cases hx
    exact .give _ (Queues.setQueue_locked _ _) (.refl _)
  case drainAmount | drainWrite =>
    cases hi
    cases hx
    exact hkeep rfl (Op.holds_drainLoop ..)
  case drainFront =>
    cases hi
    simp only [QInstr.exec] at hx
    split at hx <;> cases hx
    exact hkeep rfl rfl
  case drainStoreLen | queuePushBack | queuePushStoreLen | queuePopFront | queuePopStoreLen =>
    cases hi
    cases hx
    exact hkeep rfl rfl
  case cursorStolen d k tail blocked =>
    cases hi
    cases hx
    refine hkeep rfl ?_
    cases k <;> simp only [Op.afterCursorData, Op.popLoop] <;> (try split) <;> rfl
  all_goals
    (try split at hi) <;> cases hi <;> refine hkeep rfl ?_ <;> simp only [QInstr.exec] at hx <;>
      (try split at hx) <;> cases hx <;> (try simp only [Op.popLoop, Op.stealLoop]) <;>
      (try split) <;> rfl

end Ticks

/-! ## Every lock names a thread in its critical section -/

section Threads

variable {t u : Tid} {c : Choice} {m m' : Mem} {th th' : Thread} {l : LockId}

/-- The locks of the batching queues, among all locks. -/
theorem LockStep.ofQueues {queues : Queues DequeId QueueId Tid Nat} {held held' : List QueueId}
    (h : LockStep t (fun k => (m.queues.queue k).locked) (fun k => (queues.queue k).locked)
      held held') :
    LockStep t m.lockedBy (Mem.lockedBy { m with queues := queues }) (held.map .queue)
      (held'.map .queue) := by
  have hset : ∀ q x, (fun k => (queues.queue k).locked) =
      Function.update (fun k => (m.queues.queue k).locked) q x →
      Mem.lockedBy { m with queues := queues } = Function.update m.lockedBy (.queue q) x := by
    intro q x hq
    funext l
    rcases l with r | p
    · have hr := congrFun hq r
      rcases eq_or_ne r q with rfl | hne
      · simpa [Mem.lockedBy] using hr
      · simpa [Mem.lockedBy, hne] using hr
    · simp [Mem.lockedBy]
  cases h with
  | keep hholder hheld =>
      refine .keep (funext fun l => ?_) (hheld.map _)
      rcases l with q | p
      · exact congrFun hholder q
      · rfl
  | take q hfree hholder hheld => exact .take (.queue q) hfree (hset q _ hholder) (hheld.map _)
  | give q hholder hheld => exact .give (.queue q) (hset q _ hholder) (hheld.map _)

/-- The innermost frame gives way to others, and no operation holds a lock. -/
theorem LockStep.frames {f : Frame} {fs rest : List Frame} {ctx ctx' : Context}
    {op op' : Op DequeId QueueId Nat} (hop : op.holds = none) (hop' : op'.holds = none)
    (h : f.LockStep t m m' fs) :
    LockStep t m.lockedBy m'.lockedBy (Thread.held ⟨ctx, f :: rest, op⟩)
      (Thread.held ⟨ctx', fs ++ rest, op'⟩) := by
  have hbefore : Thread.held ⟨ctx, f :: rest, op⟩ = f.holds.toList ++ rest.filterMap Frame.holds := by
    cases hf : f.holds <;> simp [Thread.held, hop, hf]
  have hafter : Thread.held ⟨ctx', fs ++ rest, op'⟩ =
      fs.filterMap Frame.holds ++ rest.filterMap Frame.holds := by
    simp [Thread.held, hop']
  rw [hbefore, hafter]
  exact h.beside _

/-- A step of a thread keeps to its critical sections, if what it creates afresh is
not locked. -/
theorem ThreadStep.locks (hs : ThreadStep t c m th m' th')
    (hnew : ∀ f ∈ th.stack.head?, ∀ l, f.Renews m l → m.lockedBy l = none) :
    LockStep t m.lockedBy m'.lockedBy th.held th'.held := by
  cases hs with
  | @resume ctx o f rest =>
      have hstep : f.LockStep t m m (f.resume o) := .stay rfl (Frame.resume_holds f o)
      have h : LockStep t m.lockedBy m.lockedBy (Thread.held ⟨ctx, f :: rest, .idle⟩)
          (Thread.held ⟨ctx, f.resume o ++ rest, .idle⟩) := .frames rfl rfl hstep
      exact h
  | @call ctx f f' rest q hcall =>
      have hstep : f.LockStep t m m [f'] := by
        refine .stay rfl ?_
        rw [← Frame.call_holds hcall]
        cases hf : f'.holds <;> simp [hf]
      exact .frames rfl (Op.holds_start q) hstep
  | frame hstep => exact .frames rfl rfl (Frame.step_locks hstep (hnew _ rfl))
  | answer => exact .frames rfl rfl (.stay rfl (Frame.answer_holds _ _))
  | @tick ctx stack o o' queues i hi hx =>
      have h : LockStep t m.lockedBy (Mem.lockedBy { m with queues := queues }) _ _ :=
        .ofQueues (Op.tick_locks hi hx)
      have hbeside := h.beside (stack.filterMap Frame.holds)
      rw [← Option.toList_map, ← Option.toList_map] at hbeside
      exact hbeside

end Threads

/-- A lock that is held is that of a queue or of a pool its holder works on. -/
theorem worksOn_of_held {s : PoolState} (hs : poolMachine.Reachable s) {t : Tid} {l : LockId}
    (hl : l ∈ (s.threads t).held) : ∃ f ∈ (s.threads t).stack,
      match l with
      | .queue q => f.WorksOn (.queue q)
      | .sleepers p => f.pool = some p := by
  rcases List.mem_append.mp hl with hop | hframe
  · obtain ⟨q, hq, rfl⟩ := Option.map_eq_some_iff.mp (Option.mem_toList.mp hop)
    rcases calling hs t with hidle | ⟨f, rest, c, hstack, hwaits, hwithin⟩
    · rw [hidle] at hq
      cases hq
    · exact ⟨f, hstack ▸ List.mem_cons_self, hwaits.worksOn.2 q (hwithin.queues hq)⟩
  · obtain ⟨f, hf, hl⟩ := List.mem_filterMap.mp hframe
    refine ⟨f, hf, ?_⟩
    cases f <;> simp only [Frame.holds, reduceCtorEq] at hl <;> split at hl <;> cases hl <;> rfl

/-- What a thread creates afresh, nobody has locked. -/
theorem free_of_renews {s : PoolState} (hs : poolMachine.Reachable s)
    (hheld : ∀ u, HoldsExactly u s.mem.lockedBy (s.threads u).held) {t : Tid} {f : Frame}
    (hf : f ∈ (s.threads t).stack.head?) {l : LockId} (hl : f.Renews s.mem l) :
    s.mem.lockedBy l = none := by
  by_contra hne
  obtain ⟨u, hu⟩ := Option.ne_none_iff_exists'.mp hne
  obtain ⟨g, hg, hworks⟩ := worksOn_of_held hs (((hheld u).named l).mp hu)
  have hstack : ∃ rest, (s.threads t).stack = f :: rest := by
    cases hst : (s.threads t).stack with
    | nil => simp [hst] at hf
    | cons g rest =>
        simp only [hst, List.head?_cons, Option.mem_def, Option.some.injEq] at hf
        exact ⟨rest, hf ▸ rfl⟩
  obtain ⟨rest, hstack⟩ := hstack
  have hfit : f.Fits t s.mem rest := by
    have hfits := (placed hs t).fits
    rw [hstack] at hfits
    exact hfits.1
  cases f with
  | user c => obtain rfl | rfl := hl <;> exact not_live_of_fresh (live_of_pool hs hg hworks)
  | newPool p pc =>
      obtain ⟨i, rfl⟩ := hl
      exact hfit.not_live_of_newPool (live_of_pool hs hg hworks)
  | scope p r pc =>
      obtain rfl := hl
      exact (unused_of_scope hs hstack).2 u g hg hworks
  | _ => exact hl

/-- The locks that name a thread are those of the critical sections it is in. -/
theorem holdsExactly {s : PoolState} (hs : poolMachine.Reachable s) (t : Tid) :
    HoldsExactly t s.mem.lockedBy (s.threads t).held := by
  refine Machine.thread_invariant (A := fun t m th => HoldsExactly t m.lockedBy th.held)
    ?_ ?_ ?_ hs t
  · rintro s rfl t
    refine ⟨?_, fun l => ?_⟩
    · cases t <;> exact List.nodup_nil
    · cases t <;> rcases l with q | p <;> exact ⟨nofun, nofun⟩
  · intro s t ch m th hr _ hA h
    exact ((threadStep_cases h).locks fun _ hf _ => free_of_renews hr.reachable hA hf).self (hA t)
  · intro s t ch m th u hr _ hA hu h
    exact ((threadStep_cases h).locks fun _ hf _ => free_of_renews hr.reachable hA hf).other hu
      (hA t) (hA u)

end XynokConcurrency
