import XynokConcurrency.Lib.CallStack
import XynokConcurrency.ThreadPool.Calls
import XynokConcurrency.ThreadPool.Programs

/-!
# Who calls whom

The shape of the threads' stacks, whatever the memory holds: the frame below
another one is one that calls it, the bottom frame belongs to the thread, and a
queue operation under way is the one the innermost frame waits for.

Main results:

- Theorem {lit}`threadStep_cases`: the five ways a thread can step.
- Theorem {lit}`linked`: every reachable stack is linked.
- Theorem {lit}`calling`: every operation under way is within the call its frame
  waits for.
- Theorem {lit}`awaits`: below the top of a reachable stack, every frame waits for
  the one above.
-/

namespace XynokConcurrency

theorem keep_eq {ctx ctx' : Context} {x : Option (Mem × List Frame)} {m : Mem} {fs : List Frame} :
    keep ctx x = some (m, ctx', fs) ↔ x = some (m, fs) ∧ ctx' = ctx := by
  rcases x with _ | ⟨m₁, fs₁⟩ <;> simp [keep]
  tauto

theorem keepMem_eq {m m' : Mem} {ctx ctx' : Context} {x : Option (List Frame)} {fs : List Frame} :
    keepMem m ctx x = some (m', ctx', fs) ↔ x = some fs ∧ m' = m ∧ ctx' = ctx := by
  cases x <;> simp [keepMem]
  tauto

/-! ## Links -/

/-- The frame {lit}`g` calls the function {lit}`f` belongs to, and waits for it. -/
def Frame.Under : Frame → Frame → Prop
  | .user .main, _ => False
  | .user (.body j), g => g = .task j .plain ∨ ∃ s, g = .task j (.scoped s)
  | .user (.closure s), g => ∃ p role previous, g = .scope p s (.closure role previous)
  | .user (.intoIter s), g => ∃ p, g = .batch p s .intoIter
  | .user (.iterNext s), g => ∃ p caller index, g = .assign p s caller index .waiting
  | .ret _, _ => True
  | .callEnd _, g => ∃ u, g = .user u
  | .callDone _ _, g => ∃ u, g = .user u
  | .spawnEnd _, g => ∃ u, g = .user u
  | .spawnDone _ _, g => ∃ u, g = .user u
  | .newPool _ _, g => ∃ u, g = .user u
  | .dropPool _ _, g => ∃ u, g = .user u
  | .enqueue p _, g => g = .callEnd p ∨ ∃ s, g = .spawnEnd s
  | .enqueueWait p _, g => g = .callEnd p ∨ ∃ s, g = .spawnEnd s
  | .wake p _ _, g => g = .callEnd p ∨ ∃ s, g = .spawnEnd s
  | .spawn _ s _, g => g = .spawnEnd s
  | .spawnWait _ s _, g => g = .spawnEnd s
  | .scope p _ _, g => g = .callEnd p
  | .runUntil w s _ _, g =>
      ∃ role previous outcome, g = .scope w.root s (.waiting role previous outcome)
  | .pop w _, g =>
      (∃ s tick, g = .runUntil w s tick .popping) ∨ (∃ tick, g = .steal w tick .popRefilled) ∨
        (∃ tick offset, g = .steal w tick (.popStolen offset)) ∨
        ∃ p i tick rounds, w = .slot p i ∧ g = .loop p i tick rounds .popping
  | .steal w tick _, g =>
      (∃ s, g = .runUntil w s tick .stealing) ∨
        ∃ p i rounds, w = .slot p i ∧ g = .loop p i tick rounds .stealing
  | .task _ _, g => (∃ w, g = .pop w .running) ∨ ∃ w tick, g = .steal w tick .running
  | .batch p s _, g => ∃ role previous, g = .scope p s (.closure role previous)
  | .inboxes p s caller index _, g =>
      g = .publish p s .assigning ∧ index = 0 ∨
        ∃ i held len, g = .inboxes p s caller i (.nested held len) ∧ index = i + 1
  | .assign p s caller _ _, g =>
      g = .publish p s .assigning ∨ ∃ i held len, g = .inboxes p s caller i (.nested held len)
  | .publish p s _, g => g = .batch p s .publishing
  | .loop _ _ _ _ _, _ => False
  | .sleep p i _, g => ∃ tick rounds, g = .loop p i tick rounds .sleeping
  | .shutdown p _ _ _, g => g = .newPool p .failed ∨ g = .dropPool p .shutdown
  | .dropJobs _, g | .dropEnv _ _, g =>
      (∃ p s role result, g = .scope p s (.dropHelper role result)) ∨
        (∃ p s caller index held x, g = .inboxes p s caller index (.dropping held x)) ∨
        (∃ p handles count k, g = .shutdown p handles count (.tasksDropped k)) ∨
        (∃ p handles count k, g = .shutdown p handles count (.inboxDropped k)) ∨
        ∃ p, g = .dropPool p .tasksDropped

/-- The frame is what thread {lit}`t` was started with. -/
def Frame.Bottom (t : Tid) : Frame → Prop
  | .user .main => ∃ e, t = .ext e
  | .loop p i _ _ _ => t = .worker p i
  | _ => False

/-- The frame stands where it may. -/
def Frame.On (t : Tid) (rest : List Frame) (f : Frame) : Prop :=
  match rest with
  | [] => f.Bottom t
  | g :: _ => f.Under g

/-- Every frame of the stack stands where it may. -/
abbrev Linked (t : Tid) (stack : List Frame) : Prop :=
  Everywhere (Frame.On t) stack

/-- The frame waits for the call on a thread with context {lit}`ctx`. -/
def Frame.Waits (ctx : Context) : Frame → QueueCall DequeId QueueId Nat → Prop
  | .enqueueWait p j, q => q = .queuePush (.tasks p) j
  | .spawnWait p _ j, q => ctx.pool = p ∧ q = .push (.slot p ctx.index) j
  | .pop w .popWait, q => q = .pop w.tasks
  | .pop w .inboxWait, q => q = .queuePop w.inbox
  | .steal w _ .refillWait, q =>
      ∃ max, q = .pushBatchByTakingFromQueue w.tasks max (.tasks w.root)
  | .steal w _ (.tryPopWait _), q => ∃ i, q = .queueTryPop (.inbox w.root i)
  | .steal w _ (.victimLenWait _), q => ∃ i, q = .len (.slot w.root i)
  | .steal w _ (.stealWait _), q => ∃ i max, q = .trySteal (.slot w.root i) max w.tasks
  | .sleep p _ (.dequeWait k), q => q = .len (.slot p k)
  | _, _ => False

/-- The thread's operation is idle, or within the call its innermost frame waits
for. -/
def Thread.Calling (th : Thread) : Prop :=
  th.op = .idle ∨ ∃ f rest q, th.stack = f :: rest ∧ f.Waits th.ctx q ∧ th.op.Within q

/-! ## The ways a thread can step -/

/-- One step of a thread, by what takes it. -/
inductive ThreadStep (t : Tid) (c : Choice) (m : Mem) : Thread → Mem → Thread → Prop
  /-- A result reaches the frame that waits for it. -/
  | resume {ctx : Context} {o : Outcome} {f : Frame} {rest : List Frame} :
      ThreadStep t c m ⟨ctx, .ret o :: f :: rest, .idle⟩ m ⟨ctx, f.resume o ++ rest, .idle⟩
  /-- The innermost frame calls a queue operation. -/
  | call {ctx : Context} {f f' : Frame} {rest : List Frame} {q : QueueCall DequeId QueueId Nat}
      (h : f.call m ctx = some (q, f')) :
      ThreadStep t c m ⟨ctx, f :: rest, .idle⟩ m ⟨ctx, f' :: rest, .start q⟩
  /-- The innermost frame steps by itself. -/
  | frame {ctx ctx' : Context} {f : Frame} {rest fs : List Frame} {m' : Mem}
      (h : f.step t c m ctx = some (m', ctx', fs)) :
      ThreadStep t c m ⟨ctx, f :: rest, .idle⟩ m' ⟨ctx', fs ++ rest, .idle⟩
  /-- The queue operation is over. -/
  | answer {ctx : Context} {f : Frame} {rest : List Frame} {r : QueueRes Nat} :
      ThreadStep t c m ⟨ctx, f :: rest, .done r⟩ m ⟨ctx, f.answer r ++ rest, .idle⟩
  /-- The queue operation makes its next access. -/
  | tick {ctx : Context} {stack : List Frame} {o o' : Op DequeId QueueId Nat}
      {queues : Queues DequeId QueueId Tid Nat} {i : QInstr DequeId QueueId Nat (Op DequeId QueueId Nat)}
      (hi : o.instr (c = .spurious) = some i) (hx : i.exec t m.queues = some (queues, o')) :
      ThreadStep t c m ⟨ctx, stack, o⟩
        { m with
          queues := queues
          jobs := trackOrigins m.jobs (o.hands m.queues) (o'.hands queues) o.publishes }
        ⟨ctx, stack, o'⟩

/-- The five ways a thread can step. -/
theorem threadStep_cases {t : Tid} {c : Choice} {m m' : Mem} {th th' : Thread}
    (h : threadStep t c m th = some (m', th')) : ThreadStep t c m th m' th' := by
  obtain ⟨ctx, stack, op⟩ := th
  unfold threadStep at h
  split at h
  · rename_i hop
    simp only at hop
    subst hop
    split at h
    · cases h
    · rename_i o rest hstack
      simp only at hstack
      subst hstack
      split at h
      · cases h
        exact .resume
      · cases h
    · rename_i f rest _ hstack
      simp only at hstack
      subst hstack
      split at h
      · rename_i q f' hcall
        cases h
        exact .call hcall
      · split at h
        · rename_i m₁ ctx' fs hstep
          cases h
          exact .frame hstep
        · cases h
  · rename_i r hop
    simp only at hop
    subst hop
    split at h
    · rename_i f rest hstack
      simp only at hstack
      subst hstack
      cases h
      exact .answer
    · cases h
  · split at h
    · rename_i i hi
      split at h
      · rename_i queues o' hx
        cases h
        exact .tick hi hx
      · cases h
    · cases h

/-! ## Every stack is linked -/

section Links

variable {t : Tid} {f f' : Frame} {rest fs : List Frame}

/-- A frame may give way to another one with the same callers. -/
theorem Linked.replace (h : Linked t (f :: rest)) (hb : f.Bottom t → f'.Bottom t)
    (hu : ∀ g, f.Under g → f'.Under g) : Linked t (f' :: rest) := by
  refine ⟨?_, h.2⟩
  have hf := h.1
  cases rest with
  | nil => exact hb hf
  | cons g rest => exact hu g hf

/-- A frame that somebody called may give way to its result. -/
theorem Linked.ret {o : Outcome} (h : Linked t (f :: rest)) (hb : ¬ f.Bottom t) :
    Linked t (.ret o :: rest) :=
  h.replace (fun hf => (hb hf).elim) fun _ _ => trivial

/-- A frame may call another one. -/
theorem Linked.push (h : Linked t (f :: rest)) (hu : f'.Under f) : Linked t (f' :: f :: rest) :=
  ⟨hu, h⟩

/-- Taking a result keeps the links. -/
theorem Linked.resume {o : Outcome} (h : Linked t (f :: rest)) :
    Linked t (f.resume o ++ rest) := by
  unfold Frame.resume
  split <;> try split
  all_goals
    first
      | exact h
      | exact h.replace id fun _ => id
      | exact h.ret id
      | refine Linked.push (Linked.replace h id fun _ => id) ?_
        first
          | exact .inl ⟨_, rfl⟩
          | exact .inr ⟨_, _, _, rfl, rfl⟩
          | exact ⟨_, _, rfl⟩

/-- Starting a queue operation keeps the links. -/
theorem Linked.call {m : Mem} {ctx : Context} {q : QueueCall DequeId QueueId Nat}
    (h : Linked t (f :: rest)) (hc : f.call m ctx = some (q, f')) : Linked t (f' :: rest) := by
  unfold Frame.call at hc
  split at hc <;> (try split at hc) <;> cases hc <;> exact h.replace id fun _ => id

/-- Taking the result of a queue operation keeps the links. -/
theorem Linked.answer {r : QueueRes Nat} (h : Linked t (f :: rest)) :
    Linked t (f.answer r ++ rest) := by
  unfold Frame.answer
  split <;> try split
  all_goals
    first
      | exact h
      | exact h.replace id fun _ => id
      | exact h.replace id fun _ hg => .inr ⟨_, hg⟩
      | exact h.ret id
      | refine Linked.push (Linked.replace h id fun _ => id) ?_
        first
          | exact .inl ⟨_, rfl⟩
          | exact .inr ⟨_, _, rfl⟩
          | exact .inr (.inl ⟨_, rfl⟩)
          | exact .inr (.inr (.inl ⟨_, _, rfl⟩))

variable {c : Choice} {m m' : Mem} {ctx ctx' : Context}

/-- A step of user code keeps the links. -/
theorem Linked.userStep {u : UserCode} {a : UserAct} (h : Linked t (.user u :: rest))
    (hs : userStep t m u a = some (m', fs)) : Linked t (fs ++ rest) := by
  have hcall : ∀ fs', userCall t m a = some (m', fs') → Linked t (fs' ++ .user u :: rest) := by
    intro fs' hc
    cases a <;> simp only [userCall, enterScope] at hc <;> (try split at hc) <;> cases hc
    · exact ⟨.inl rfl, ⟨_, rfl⟩, h⟩
    · exact ⟨rfl, ⟨_, rfl⟩, h⟩
    · exact ⟨rfl, ⟨_, rfl⟩, h⟩
    · exact ⟨rfl, ⟨_, rfl⟩, h⟩
    · exact h.push ⟨_, rfl⟩
    · exact h.push trivial
    · exact ⟨.inr rfl, ⟨_, rfl⟩, h⟩
  have hend : ∀ o, userEnd m u o = some (m', fs) → Linked t (fs ++ rest) := by
    intro o he
    unfold userEnd at he
    split at he <;> (try split at he) <;> cases he
    · exact h.2
    all_goals exact h.ret id
  unfold XynokConcurrency.userStep at hs
  split at hs
  · split at hs <;> exact hend _ hs
  · split at hs
    · exact hend _ hs
    · cases hs
  · exact hend _ hs
  · split at hs
    · rename_i hc
      cases hs
      simpa using hcall _ hc
    · cases hs

/-- The worker a scope waits with is one of the scope's pool. -/
theorem scopeWorker_root {role : Role} {p s : Nat} {w : WorkerRef}
    (h : (match role with
      | .helper => some (.helper p s)
      | _ => currentWorker ctx p) = some w) : w.root = p := by
  unfold currentWorker at h
  cases role <;> simp only at h <;> (try split at h) <;> cases h <;> rfl

/-- A step of any frame keeps the links. -/
theorem Linked.step (h : Linked t (f :: rest)) (hs : f.step t c m ctx = some (m', ctx', fs)) :
    Linked t (fs ++ rest) := by
  have same : ∀ {f'}, (f.Bottom t → f'.Bottom t) → (∀ g, f.Under g → f'.Under g) →
      Linked t (f' :: rest) := fun hb hu => h.replace hb hu
  cases f <;> simp only [Frame.step, keep_eq, keepMem_eq] at hs
  case user u =>
    split at hs
    · exact h.userStep (keep_eq.mp hs).1
    · cases hs
  case callDone => cases hs; exact h.ret id
  case spawnDone => cases hs; exact h.ret id
  case wake pc =>
    obtain ⟨hs, rfl⟩ := hs
    cases pc <;> simp only [wakeStep] at hs <;> (try split at hs) <;> cases hs <;>
      first | exact same id fun _ => id | exact h.ret id
  case spawn pc =>
    obtain ⟨hs, rfl⟩ := hs
    cases pc <;> simp only [spawnStep] at hs <;> (try split at hs) <;> cases hs
    · exact same id fun _ => id
    · exact same id fun _ hg => .inr ⟨_, hg⟩
  case scope p s pc =>
    cases pc
    case runUntil role previous outcome =>
      simp only [scopeStep] at hs
      split at hs
      · rename_i w hw
        cases hs
        have hroot : w.root = p := scopeWorker_root hw
        subst hroot
        exact Linked.push (same id fun _ => id) ⟨_, _, _, rfl⟩
      · cases hs
    all_goals simp only [scopeStep] at hs
    all_goals (repeat' split at hs) <;> cases hs <;>
      first
        | exact same id fun _ => id
        | exact h.ret id
        | refine Linked.push (Linked.push (same id fun _ => id) ?_) ?_ <;>
            first | exact ⟨_, _, rfl⟩ | exact ⟨_, rfl⟩
        | refine Linked.push (same id fun _ => id) ?_
          first | exact ⟨_, _, _, rfl⟩ | exact .inl ⟨_, _, _, _, rfl⟩
  case runUntil pc =>
    obtain ⟨hs, rfl, rfl⟩ := hs
    cases pc <;> simp only [runUntilStep] at hs <;> (try split at hs) <;> cases hs
    · exact h.ret id
    · exact Linked.push (same id fun _ => id) (.inl ⟨_, _, rfl⟩)
  case steal pc =>
    obtain ⟨hs, rfl, rfl⟩ := hs
    cases pc <;> simp only [stealStep] at hs <;> (repeat' split at hs) <;> cases hs <;>
      first | exact same id fun _ => id | exact h.ret id
  case task pc =>
    obtain ⟨hs, rfl⟩ := hs
    cases pc <;> simp only [taskStep] at hs <;> (try split at hs) <;> cases hs <;>
      first
        | exact same id fun _ => id
        | exact h.ret id
        | exact Linked.push (same id fun _ => id) (.inl rfl)
        | exact Linked.push (same id fun _ => id) (.inr ⟨_, rfl⟩)
  case batch pc =>
    obtain ⟨hs, rfl, rfl⟩ := hs
    cases pc <;> simp only [batchStep] at hs <;> cases hs
    exact Linked.push (Linked.push (same id fun _ => id) rfl) (.inl ⟨rfl, rfl⟩)
  case inboxes pc =>
    obtain ⟨hs, rfl⟩ := hs
    cases pc <;> simp only [inboxesStep] at hs <;> (try split at hs) <;> cases hs <;>
      first
        | exact same id fun _ => id
        | exact h.ret id
        | exact Linked.push (same id fun _ => id) (.inr ⟨_, _, _, rfl, rfl⟩)
        | exact Linked.push (same id fun _ => id) (.inr (.inl ⟨_, _, _, _, _, _, rfl⟩))
        | exact same id fun _ hg => hg.imp And.left fun ⟨i, held, len, hg, _⟩ => ⟨i, held, len, hg⟩
  case assign pc =>
    obtain ⟨hs, rfl⟩ := hs
    cases pc <;> simp only [assignStep] at hs <;> cases hs <;>
      first
        | exact same id fun _ => id
        | exact Linked.push (same id fun _ => id) ⟨_, _, _, rfl⟩
  case publish pc =>
    obtain ⟨hs, rfl⟩ := hs
    rcases pc with _ | _ | ⟨kept, _ | ⟨i, rest'⟩⟩ | _ | _ | _ <;>
      simp only [publishStep] at hs <;> (try split at hs) <;> cases hs <;>
      first | exact same id fun _ => id | exact h.ret id
  case loop pc =>
    cases pc <;> simp only [loopStep] at hs <;> (try split at hs) <;> cases hs <;>
      first
        | exact same id fun _ => id
        | exact h.2
        | exact Linked.push (same id fun _ => id) (.inr (.inr (.inr ⟨_, _, _, _, rfl, rfl⟩)))
  case sleep pc =>
    obtain ⟨hs, rfl⟩ := hs
    cases pc <;> simp only [sleepStep] at hs <;> (repeat' split at hs) <;> cases hs <;>
      first | exact same id fun _ => id | exact h.ret id
  case newPool pc =>
    obtain ⟨hs, rfl⟩ := hs
    cases pc <;> simp only [newPoolStep] at hs <;> (repeat' split at hs) <;> cases hs <;>
      first
        | exact same id fun _ => id
        | exact h.ret id
        | exact Linked.push (same id fun _ => id) (.inl rfl)
  case shutdown pc =>
    obtain ⟨hs, rfl⟩ := hs
    cases pc <;> simp only [shutdownStep] at hs <;> (repeat' split at hs) <;> cases hs <;>
      first
        | exact same id fun _ => id
        | exact h.ret id
        | exact Linked.push (same id fun _ => id) (.inr (.inr (.inl ⟨_, _, _, _, rfl⟩)))
        | exact Linked.push (same id fun _ => id) (.inr (.inr (.inr (.inl ⟨_, _, _, _, rfl⟩))))
  case dropPool pc =>
    obtain ⟨hs, rfl⟩ := hs
    cases pc <;> simp only [dropPoolStep] at hs <;> cases hs <;>
      first
        | exact h.ret id
        | exact Linked.push (same id fun _ => id) (.inr (.inr (.inr (.inr ⟨_, rfl⟩))))
  case dropJobs js =>
    obtain ⟨hs, rfl⟩ := hs
    cases js <;> simp only [dropJobsStep] at hs <;> cases hs <;>
      first | exact same id fun _ => id | exact h.ret id
  case dropEnv =>
    cases hs
    exact same id fun _ => id
  all_goals cases hs

end Links

/-! ## What a frame may give way to -/

/-- The function a frame belongs to. -/
inductive FrameTag
  | user | ret | callEnd | callDone | enqueue | enqueueWait | wake | spawn | spawnWait | spawnEnd
  | spawnDone | scope | runUntil | pop | steal | task | batch | inboxes | assign | publish | loop
  | sleep | newPool | shutdown | dropPool | dropJobs | dropEnv
deriving DecidableEq, Repr

/-- The function of a frame. -/
def Frame.tag : Frame → FrameTag
  | .user .. => .user
  | .ret .. => .ret
  | .callEnd .. => .callEnd
  | .callDone .. => .callDone
  | .enqueue .. => .enqueue
  | .enqueueWait .. => .enqueueWait
  | .wake .. => .wake
  | .spawn .. => .spawn
  | .spawnWait .. => .spawnWait
  | .spawnEnd .. => .spawnEnd
  | .spawnDone .. => .spawnDone
  | .scope .. => .scope
  | .runUntil .. => .runUntil
  | .pop .. => .pop
  | .steal .. => .steal
  | .task .. => .task
  | .batch .. => .batch
  | .inboxes .. => .inboxes
  | .assign .. => .assign
  | .publish .. => .publish
  | .loop .. => .loop
  | .sleep .. => .sleep
  | .newPool .. => .newPool
  | .shutdown .. => .shutdown
  | .dropPool .. => .dropPool
  | .dropJobs .. => .dropJobs
  | .dropEnv .. => .dropEnv

/-- The functions whose frames may replace a frame in one step. -/
def FrameTag.next : FrameTag → List FrameTag
  | .user => [.user, .ret, .callEnd, .spawnEnd, .enqueue, .spawn, .scope, .newPool, .shutdown,
      .dropPool]
  | .ret => []
  | .callEnd => [.callDone]
  | .callDone | .spawnDone => [.ret]
  | .enqueue => [.enqueueWait]
  | .enqueueWait => [.wake]
  | .wake => [.wake, .ret]
  | .spawn => [.spawn, .spawnWait, .enqueue]
  | .spawnWait => [.wake, .enqueue]
  | .spawnEnd => [.spawnDone]
  | .scope => [.scope, .user, .batch, .runUntil, .dropJobs, .ret]
  | .runUntil => [.runUntil, .pop, .steal, .ret]
  | .pop => [.pop, .task, .ret]
  | .steal => [.steal, .pop, .task, .ret]
  | .task => [.task, .user, .ret]
  | .batch => [.batch, .inboxes, .publish, .ret]
  | .inboxes => [.inboxes, .assign, .dropJobs, .ret]
  | .assign => [.assign, .user, .ret]
  | .publish => [.publish, .ret]
  | .loop => [.loop, .pop, .steal, .sleep]
  | .sleep => [.sleep, .ret]
  | .newPool => [.newPool, .shutdown, .ret]
  | .shutdown => [.shutdown, .dropJobs, .ret]
  | .dropPool => [.dropPool, .dropJobs, .ret]
  | .dropJobs => [.dropEnv, .ret]
  | .dropEnv => [.dropJobs]

/-- The frame has called another one and waits for its result. -/
def Frame.awaits : Frame → Bool
  | .user _ | .callEnd _ | .spawnEnd _ | .task _ .plain | .task _ (.scoped _) => true
  | .scope _ _ (.closure _ _) | .scope _ _ (.waiting _ _ _) | .scope _ _ (.dropHelper _ _) => true
  | .runUntil _ _ _ .popping | .runUntil _ _ _ .stealing | .pop _ .running => true
  | .steal _ _ .popRefilled | .steal _ _ .running | .steal _ _ (.popStolen _) => true
  | .batch _ _ .intoIter | .batch _ _ .publishing | .assign _ _ _ _ .waiting => true
  | .inboxes _ _ _ _ (.nested _ _) | .inboxes _ _ _ _ (.dropping _ _) => true
  | .publish _ _ .assigning | .newPool _ .failed => true
  | .loop _ _ _ _ .popping | .loop _ _ _ _ .stealing | .loop _ _ _ _ .sleeping => true
  | .shutdown _ _ _ (.tasksDropped _) | .shutdown _ _ _ (.inboxDropped _) => true
  | .dropPool _ .shutdown | .dropPool _ .tasksDropped => true
  | _ => false

/-- The frame leaves its place to the frames of functions it may give way to, or
stays as it is. -/
def Frame.GivesWay (f : Frame) (fs : List Frame) : Prop :=
  fs = [f] ∨ ∀ g ∈ fs, g.tag ∈ f.tag.next

section Tags

variable {t : Tid} {f f' g : Frame} {fs : List Frame} {c : Choice} {m m' : Mem} {ctx ctx' : Context}

theorem Frame.GivesWay.tag (h : f.GivesWay fs) (hg : g ∈ fs) : g = f ∨ g.tag ∈ f.tag.next := by
  rcases h with rfl | h
  · exact .inl (List.mem_singleton.mp hg)
  · exact .inr (h g hg)

/-- Taking a result. -/
theorem Frame.resume_givesWay (f : Frame) (o : Outcome) : f.GivesWay (f.resume o) := by
  unfold Frame.resume
  split <;> try split
  all_goals first | exact .inl rfl | exact .inr (by simp [Frame.tag, FrameTag.next])

/-- Starting a queue operation. -/
theorem Frame.call_givesWay {q : QueueCall DequeId QueueId Nat} (h : f.call m ctx = some (q, f')) :
    f.GivesWay [f'] := by
  unfold Frame.call at h
  split at h <;> (try split at h) <;> cases h <;> exact .inr (by simp [Frame.tag, FrameTag.next])

/-- Taking the result of a queue operation. -/
theorem Frame.answer_givesWay (f : Frame) (r : QueueRes Nat) : f.GivesWay (f.answer r) := by
  unfold Frame.answer
  split <;> try split
  all_goals first | exact .inl rfl | exact .inr (by simp [Frame.tag, FrameTag.next])

/-- User code ends, or makes a call and goes on after it. -/
theorem userStep_cases {u : UserCode} {a : UserAct} (hs : userStep t m u a = some (m', fs)) :
    (∃ o, userEnd m u o = some (m', fs)) ∨
      ∃ fs', userCall t m a = some (m', fs') ∧ fs = fs' ++ [Frame.user u] := by
  unfold userStep at hs
  split at hs
  · split at hs <;> exact .inl ⟨_, hs⟩
  · split at hs
    · exact .inl ⟨_, hs⟩
    · cases hs
  · exact .inl ⟨_, hs⟩
  · split at hs
    · rename_i hc
      cases hs
      exact .inr ⟨_, hc, rfl⟩
    · cases hs

/-- User code gives way to the frames of its calls, on top of itself. -/
theorem userStep_shape {u : UserCode} {a : UserAct} (hs : userStep t m u a = some (m', fs)) :
    (∀ g ∈ fs, g.tag ∈ FrameTag.user.next) ∧ ∀ g ∈ fs.tail, g.awaits := by
  rcases userStep_cases hs with ⟨o, he⟩ | ⟨fs', hc, rfl⟩
  · unfold userEnd at he
    split at he <;> (try split at he) <;> cases he <;> simp [Frame.tag, FrameTag.next]
  · cases a <;> simp only [userCall, enterScope] at hc <;> (try split at hc) <;> cases hc <;>
      simp [Frame.tag, FrameTag.next, Frame.awaits]

/-- A step gives way to frames it may give way to, on top of ones that wait. -/
theorem Frame.step_shape (hs : f.step t c m ctx = some (m', ctx', fs)) :
    (∀ g ∈ fs, g.tag ∈ f.tag.next) ∧ ∀ g ∈ fs.tail, g.awaits := by
  cases f <;> simp only [Frame.step, keep_eq, keepMem_eq] at hs
  case user u =>
    split at hs
    · exact userStep_shape (keep_eq.mp hs).1
    · cases hs
  case callDone => cases hs; simp [Frame.tag, FrameTag.next, Frame.awaits]
  case spawnDone => cases hs; simp [Frame.tag, FrameTag.next, Frame.awaits]
  case wake pc =>
    obtain ⟨hs, rfl⟩ := hs
    cases pc <;> simp only [wakeStep] at hs <;> (try split at hs) <;> cases hs <;>
      simp [Frame.tag, FrameTag.next, Frame.awaits]
  case spawn pc =>
    obtain ⟨hs, rfl⟩ := hs
    cases pc <;> simp only [spawnStep] at hs <;> (try split at hs) <;> cases hs <;>
      simp [Frame.tag, FrameTag.next, Frame.awaits]
  case scope pc =>
    cases pc <;> simp only [scopeStep] at hs <;> (repeat' split at hs) <;> cases hs <;>
      simp [Frame.tag, FrameTag.next, Frame.awaits]
  case runUntil pc =>
    obtain ⟨hs, rfl, rfl⟩ := hs
    cases pc <;> simp only [runUntilStep] at hs <;> (try split at hs) <;> cases hs <;>
      simp [Frame.tag, FrameTag.next, Frame.awaits]
  case steal pc =>
    obtain ⟨hs, rfl, rfl⟩ := hs
    cases pc <;> simp only [stealStep] at hs <;> (repeat' split at hs) <;> cases hs <;>
      simp [Frame.tag, FrameTag.next, Frame.awaits]
  case task pc =>
    obtain ⟨hs, rfl⟩ := hs
    cases pc <;> simp only [taskStep] at hs <;> (try split at hs) <;> cases hs <;>
      simp [Frame.tag, FrameTag.next, Frame.awaits]
  case batch pc =>
    obtain ⟨hs, rfl, rfl⟩ := hs
    cases pc <;> simp only [batchStep] at hs <;> cases hs
    simp [Frame.tag, FrameTag.next, Frame.awaits]
  case inboxes pc =>
    obtain ⟨hs, rfl⟩ := hs
    cases pc <;> simp only [inboxesStep] at hs <;> (try split at hs) <;> cases hs <;>
      simp [Frame.tag, FrameTag.next, Frame.awaits]
  case assign pc =>
    obtain ⟨hs, rfl⟩ := hs
    cases pc <;> simp only [assignStep] at hs <;> cases hs <;> simp [Frame.tag, FrameTag.next, Frame.awaits]
  case publish pc =>
    obtain ⟨hs, rfl⟩ := hs
    rcases pc with _ | _ | ⟨kept, _ | ⟨i, rest'⟩⟩ | _ | _ | _ <;>
      simp only [publishStep] at hs <;> (try split at hs) <;> cases hs <;>
      simp [Frame.tag, FrameTag.next, Frame.awaits]
  case loop pc =>
    cases pc <;> simp only [loopStep] at hs <;> (try split at hs) <;> cases hs <;>
      simp [Frame.tag, FrameTag.next, Frame.awaits]
  case sleep pc =>
    obtain ⟨hs, rfl⟩ := hs
    cases pc <;> simp only [sleepStep] at hs <;> (repeat' split at hs) <;> cases hs <;>
      simp [Frame.tag, FrameTag.next, Frame.awaits]
  case newPool pc =>
    obtain ⟨hs, rfl⟩ := hs
    cases pc <;> simp only [newPoolStep] at hs <;> (repeat' split at hs) <;> cases hs <;>
      simp [Frame.tag, FrameTag.next, Frame.awaits]
  case shutdown pc =>
    obtain ⟨hs, rfl⟩ := hs
    cases pc <;> simp only [shutdownStep] at hs <;> (repeat' split at hs) <;> cases hs <;>
      simp [Frame.tag, FrameTag.next, Frame.awaits]
  case dropPool pc =>
    obtain ⟨hs, rfl⟩ := hs
    cases pc <;> simp only [dropPoolStep] at hs <;> cases hs <;> simp [Frame.tag, FrameTag.next, Frame.awaits]
  case dropJobs js =>
    obtain ⟨hs, rfl⟩ := hs
    cases js <;> simp only [dropJobsStep] at hs <;> cases hs <;> simp [Frame.tag, FrameTag.next, Frame.awaits]
  case dropEnv => cases hs; simp [Frame.tag, FrameTag.next, Frame.awaits]
  all_goals cases hs

/-- A step gives way to frames of the next kinds. -/
theorem Frame.step_givesWay (hs : f.step t c m ctx = some (m', ctx', fs)) :
    ∀ g ∈ fs, g.tag ∈ f.tag.next := (Frame.step_shape hs).1

/-- A result calls frames on top of ones that wait. -/
theorem Frame.resume_awaits (f : Frame) (o : Outcome) : ∀ g ∈ (f.resume o).tail, g.awaits := by
  unfold Frame.resume
  split <;> (try split) <;> simp [Frame.awaits]

/-- The result of an operation calls frames on top of ones that wait. -/
theorem Frame.answer_awaits (f : Frame) (r : QueueRes Nat) : ∀ g ∈ (f.answer r).tail, g.awaits := by
  unfold Frame.answer
  split <;> (try split) <;> simp [Frame.awaits]

end Tags

/-- A step of a thread keeps what every frame of it has over the frames below: frames that
are replaced hand it on, and those below keep it. -/
theorem ThreadStep.everywhere {t : Tid} {c : Choice} {m m' : Mem} {th th' : Thread}
    {Q : Mem → List Frame → Frame → Prop} (hs : ThreadStep t c m th m' th')
    (h : Everywhere (Q m) th.stack)
    (hresume : ∀ o f rest, Q m rest f →
      Everywhere (fun above g => Q m (above ++ rest) g) (f.resume o))
    (hcall : ∀ f f' rest q, f.call m th.ctx = some (q, f') → Q m rest f → Q m rest f')
    (hanswer : ∀ r f rest, Q m rest f →
      Everywhere (fun above g => Q m (above ++ rest) g) (f.answer r))
    (hframe : ∀ f rest ctx' fs, th.stack = f :: rest → f.step t c m th.ctx = some (m', ctx', fs) →
      Q m rest f → Everywhere (fun above g => Q m' (above ++ rest) g) fs)
    (hbelow : ∀ above rest, th.stack = above ++ rest → Everywhere (Q m) rest →
      Everywhere (Q m') rest) : Everywhere (Q m') th'.stack := by
  cases hs with
  | @resume ctx o f rest => exact everywhere_append.mpr ⟨hresume o f rest h.2.1, h.2.2⟩
  | @call ctx f f' rest q hc => exact ⟨hcall f f' rest q hc h.1, h.2⟩
  | @frame ctx ctx' f rest fs m' hf =>
      exact everywhere_append.mpr ⟨hframe f rest ctx' fs rfl hf h.1, hbelow [f] rest rfl h.2⟩
  | @answer ctx f rest r => exact everywhere_append.mpr ⟨hanswer r f rest h.1, h.2⟩
  | tick => exact hbelow [] _ rfl h

/-- A step of the machine is one of its thread, and leaves the other threads alone. -/
theorem thread_step {s s' : PoolState} {l : Tid × Choice} (h : poolMachine.step s l = some s') :
    ThreadStep l.1 l.2 s.mem (s.threads l.1) s'.mem (s'.threads l.1) ∧
      ∀ t, t ≠ l.1 → s'.threads t = s.threads t := by
  obtain ⟨m, th, hth, rfl⟩ := Machine.ofThreads_step h
  exact ⟨by simpa using threadStep_cases hth, fun t ht => Function.update_of_ne ht ..⟩

/-- Where a frame of a stack comes from: it was below the innermost one before the step, or
an operation is under way, or it replaces the frame that took a result, called an operation,
took the result of one, or stepped. -/
inductive ThreadStep.Origin (t : Tid) (c : Choice) (m : Mem) (th : Thread) (m' : Mem)
    (th' : Thread) (g : Frame) : Prop
  | kept (h : g ∈ th.stack.tail) : Origin t c m th m' th' g
  | waits (hop : th.op ≠ .idle) (hstack : th'.stack = th.stack) (h : g ∈ th.stack) :
      Origin t c m th m' th' g
  | resumed {o : Outcome} {f : Frame} {rest : List Frame} (hstack : th.stack = .ret o :: f :: rest)
      (h : g ∈ f.resume o) (hm : m' = m) : Origin t c m th m' th' g
  | called {f : Frame} {rest : List Frame} {q : QueueCall DequeId QueueId Nat}
      (hstack : th.stack = f :: rest) (h : f.call m th.ctx = some (q, g)) (hm : m' = m) :
      Origin t c m th m' th' g
  | answered {f : Frame} {rest : List Frame} {r : QueueRes Nat} (hstack : th.stack = f :: rest)
      (h : g ∈ f.answer r) (hm : m' = m) : Origin t c m th m' th' g
  | stepped {f : Frame} {rest : List Frame} {ctx' : Context} {fs : List Frame}
      (hstack : th.stack = f :: rest) (hstep : f.step t c m th.ctx = some (m', ctx', fs))
      (hstack' : th'.stack = fs ++ rest) (h : g ∈ fs) : Origin t c m th m' th' g

/-- Every frame of a stack has an origin. -/
theorem ThreadStep.of_mem {t : Tid} {c : Choice} {m m' : Mem} {th th' : Thread} {g : Frame}
    (hs : ThreadStep t c m th m' th') (hg : g ∈ th'.stack) : Origin t c m th m' th' g := by
  cases hs with
  | @resume ctx o f rest =>
      rcases List.mem_append.mp hg with h | h
      · exact .resumed rfl h rfl
      · exact .kept (by simp [h])
  | @call ctx f f' rest q hc =>
      rcases List.mem_cons.mp hg with rfl | h
      · exact .called rfl hc rfl
      · exact .kept (by simp [h])
  | @frame ctx ctx' f rest fs m' hf =>
      rcases List.mem_append.mp hg with h | h
      · exact .stepped rfl hf rfl h
      · exact .kept (by simp [h])
  | @answer ctx f rest r =>
      rcases List.mem_append.mp hg with h | h
      · exact .answered rfl h rfl
      · exact .kept (by simp [h])
  | tick hi => exact .waits (by rintro rfl; cases hi) rfl hg

/-- A step of a thread keeps the links. -/
theorem ThreadStep.linked {t : Tid} {c : Choice} {m m' : Mem} {th th' : Thread}
    (hs : ThreadStep t c m th m' th') (h : Linked t th.stack) : Linked t th'.stack := by
  cases hs with
  | resume => exact Linked.resume h.2
  | call hc => exact Linked.call h hc
  | frame hf => exact Linked.step h hf
  | answer => exact Linked.answer h
  | tick => exact h

/-- Below the top of a stack, every frame waits for the one above. -/
theorem ThreadStep.awaits {t : Tid} {c : Choice} {m m' : Mem} {th th' : Thread}
    (hs : ThreadStep t c m th m' th') (h : ∀ f ∈ th.stack.tail, f.awaits) :
    ∀ f ∈ th'.stack.tail, f.awaits := by
  have hreplace : ∀ {fs rest : List Frame}, (∀ g ∈ fs.tail, g.awaits) → (∀ g ∈ rest, g.awaits) →
      ∀ g ∈ (fs ++ rest).tail, g.awaits := by
    intro fs rest hfs hrest g hg
    cases fs with
    | nil => exact hrest g (List.mem_of_mem_tail hg)
    | cons f fs => exact (List.mem_append.mp hg).elim (hfs g) (hrest g)
  cases hs with
  | resume =>
      exact hreplace (Frame.resume_awaits _ _) fun g hg => h g (List.mem_cons_of_mem _ hg)
  | frame hf => exact hreplace (Frame.step_shape hf).2 h
  | answer => exact hreplace (Frame.answer_awaits _ _) h
  | call | tick => exact h

/-- A frame that calls an operation waits for it. -/
theorem Frame.waits_of_call {m : Mem} {ctx : Context} {f f' : Frame}
    {q : QueueCall DequeId QueueId Nat} (h : f.call m ctx = some (q, f')) : f'.Waits ctx q := by
  unfold Frame.call at h
  split at h <;> (try split at h) <;> cases h <;>
    first | exact rfl | exact ⟨_, rfl⟩ | exact ⟨_, _, rfl⟩ | exact ⟨‹_›, rfl⟩

/-- A step of a thread keeps its operation within the call. -/
theorem ThreadStep.calling {t : Tid} {c : Choice} {m m' : Mem} {th th' : Thread}
    (hs : ThreadStep t c m th m' th') (h : th.Calling) : th'.Calling := by
  cases hs with
  | resume => exact .inl rfl
  | call hc => exact .inr ⟨_, _, _, rfl, Frame.waits_of_call hc, .start _⟩
  | frame hf => exact .inl rfl
  | answer => exact .inl rfl
  | tick hi hx =>
      rcases h with h | ⟨f, rest, q, hstack, hwaits, hwithin⟩
      · simp only at h
        subst h
        cases hi
      · exact .inr ⟨f, rest, q, hstack, hwaits, hwithin.tick hi hx⟩

/-- Every reachable thread waits for the operation it has under way. -/
theorem calling {s : PoolState} (hs : poolMachine.Reachable s) (t : Tid) :
    (s.threads t).Calling := by
  refine Machine.thread_invariant (A := fun _ _ th => th.Calling) ?_ ?_ ?_ hs t
  · rintro s rfl t
    cases t <;> exact .inl rfl
  · intro s t ch m th _ _ hA h
    exact (threadStep_cases h).calling (hA t)
  · intro s t ch m th u _ _ hA _ _
    exact hA u

/-- Every reachable stack is linked. -/
theorem linked {s : PoolState} (hs : poolMachine.Reachable s) (t : Tid) :
    Linked t (s.threads t).stack := by
  refine Machine.thread_invariant (A := fun t _ th => Linked t th.stack) ?_ ?_ ?_ hs t
  · rintro s rfl t
    cases t with
    | worker p i => exact ⟨rfl, trivial⟩
    | ext e => exact ⟨⟨e, rfl⟩, trivial⟩
  · intro s t ch m th _ _ hA h
    exact (threadStep_cases h).linked (hA t)
  · intro s t ch m th u _ _ hA _ _
    exact hA u

/-- Below the top of a reachable stack, every frame waits for the one above. -/
theorem awaits {s : PoolState} (hs : poolMachine.Reachable s) (t : Tid) :
    ∀ f ∈ (s.threads t).stack.tail, f.awaits := by
  refine Machine.thread_invariant (A := fun _ _ th => ∀ f ∈ th.stack.tail, f.awaits) ?_ ?_ ?_ hs t
  · rintro s rfl t
    cases t <;> simp [Thread.initial]
  · intro s t ch m th _ _ hA h
    exact (threadStep_cases h).awaits (hA t)
  · intro s t ch m th u _ _ hA _ _
    exact hA u

end XynokConcurrency
