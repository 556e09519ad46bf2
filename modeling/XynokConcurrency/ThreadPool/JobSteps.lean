import XynokConcurrency.ThreadPool.Locks

/-!
# What a step does to the jobs

A frame may have jobs in its hands that nobody has started, and a frame of
{lit}`run_task` may run a job of a scope that still has its ticket.  A step of a
frame moves jobs between its hands and a container, makes a job, starts one, gives
back a ticket, drops a job that was never started, or does nothing to the jobs.

Main results:

- Inductive type {lit}`Frame.JobStep`: the ways a frame can step, as far as the
  jobs go.
- Theorem {lit}`Frame.step_jobs`: every step of a frame is one of them.

Source: {lit}`thread_pool/scope.rs`, {lit}`thread_pool/shared.rs`,
{lit}`thread_pool/worker.rs`, {lit}`thread_pool/mod.rs`.
-/

namespace XynokConcurrency

/-! ## Jobs of a frame -/

/-- Jobs a frame has in its hands, none of them started. -/
def Frame.carries : Frame → List Nat
  | .enqueue _ j | .spawn _ _ (.pushJob j) | .assign _ _ _ _ (.place j) | .task j .start => [j]
  | .dropJobs js | .dropEnv _ js => js
  | _ => []

/-- Job of a scope that a frame runs, as long as the job has its ticket. -/
def Frame.runs : Frame → List Nat
  | .task j pc => match pc with
      | .start | .plain | .dropEnv => []
      | _ => [j]
  | _ => []

/-- Jobs that lie in a container. -/
def Mem.lyingIn (m : Mem) : Place → List Nat
  | .deque d => (m.queues.deque d).unclaimed
  | .queue q => (m.queues.queue q).elements

/-- Containers a frame creates afresh. -/
def Frame.Creates (m : Mem) : Frame → Place → Prop
  | .user _, x => x = .queue (.tasks m.nextPool)
  | .newPool p _, x => ∃ i, x = .deque (.slot p i) ∨ x = .queue (.inbox p i)
  | .scope _ s (.tryHost _), x => x = .deque (.helper s) ∨ x = .queue (.helperInbox s)
  | _, _ => False

/-- Containers a frame empties, or creates afresh. -/
def Frame.Clears (m : Mem) : Frame → Place → Prop
  | .scope _ s _, x => x = .deque (.helper s) ∨ x = .queue (.helperInbox s)
  | .shutdown p _ _ (.dropTasks i), x => x = .deque (.slot p i)
  | .shutdown p _ _ (.dropInbox i), x => x = .queue (.inbox p i)
  | .dropPool p .tasks, x => x = .queue (.tasks p)
  | f, x => f.Creates m x

/-- The frame is about to make a job for a scope. -/
def Frame.Makes (s : Nat) : Frame → Prop
  | .spawn _ r .ticket | .assign _ r _ _ .ticket => r = s
  | _ => False

/-! ## Records of jobs and of tickets -/

/-- What a job was made for, and how far it has come. -/
def Job.fate (job : Job) : Job :=
  { job with runs := 0, captures := true, origin := none, announced := false, woken := false }

/-- The tickets of a scope, and how the latch counts them. -/
def Scope.count (scope : Scope) : List Nat × Nat :=
  (scope.tickets, scope.latch.remaining)

/-- Two memories agree on the tickets of all scopes, but for those of new scopes. -/
structure Mem.SameTickets (m m' : Mem) : Prop where
  old : ∀ s, s < m.nextScope → (m'.scopes s).count = (m.scopes s).count
  fresh : ∀ s, m.nextScope ≤ s → s < m'.nextScope → (m'.scopes s).count = ([], 1)
  next : m.nextScope ≤ m'.nextScope

/-- Two memories agree on the fate of all jobs. -/
structure Mem.SameFates (m m' : Mem) : Prop where
  fate : ∀ j, (m'.jobs j).fate = (m.jobs j).fate
  next : m'.nextJob = m.nextJob

/-- Two memories agree on the tickets and on the fate of all jobs. -/
structure Mem.SameJobs (m m' : Mem) : Prop where
  tickets : m.SameTickets m'
  fates : m.SameFates m'

namespace Mem.SameTickets

variable {m m' : Mem} {s : Nat}

/-- Only scopes carry tickets. -/
theorem of_scopes (h : m'.scopes = m.scopes) (hn : m'.nextScope = m.nextScope) : m.SameTickets m' :=
  ⟨fun s _ => by rw [h], fun s hs hs' => (Nat.lt_irrefl _ (hs.trans_lt (hn ▸ hs'))).elim, hn.ge⟩

theorem refl (m : Mem) : m.SameTickets m := .of_scopes rfl rfl

/-- A scope may change but for its tickets. -/
theorem modScope {f : Scope → Scope} (hscopes : m'.scopes = m.scopes)
    (hn : m'.nextScope = m.nextScope) (hf : ∀ scope : Scope, (f scope).count = scope.count) :
    m.SameTickets (m'.modScope s f) := by
  refine ⟨fun r _ => ?_, fun r hr hr' => ?_, hn.ge⟩
  · rcases eq_or_ne r s with rfl | hne
    · simp [hf, hscopes]
    · simp [hne, hscopes]
  · exact (Nat.lt_irrefl _ (hr.trans_lt (hn ▸ hr'))).elim

/-- A scope is made. -/
theorem newScope {root : Nat} {batch : Bool} {t : Tid}
    (hscopes : m'.scopes = Function.update m.scopes m.nextScope (.new root batch t))
    (hn : m'.nextScope = m.nextScope + 1) : m.SameTickets m' := by
  refine ⟨fun r hr => ?_, fun r hr hr' => ?_, hn ▸ Nat.le_succ _⟩
  · simp [hscopes, hr.ne]
  · obtain rfl : r = m.nextScope := by omega
    simp [hscopes, Scope.new, Scope.count]

end Mem.SameTickets

namespace Mem.SameFates

variable {m m' : Mem} {j : Nat}

theorem of_jobs (h : m'.jobs = m.jobs) (hn : m'.nextJob = m.nextJob) : m.SameFates m' :=
  ⟨fun j => by rw [h], hn⟩

section Projections

variable (h : m.SameFates m') (k : Nat)
include h

theorem home : (m'.jobs k).home = (m.jobs k).home :=
  show (m'.jobs k).fate.home = (m.jobs k).fate.home by rw [h.fate]

theorem starts : (m'.jobs k).starts = (m.jobs k).starts :=
  show (m'.jobs k).fate.starts = (m.jobs k).fate.starts by rw [h.fate]

theorem drops : (m'.jobs k).drops = (m.jobs k).drops :=
  show (m'.jobs k).fate.drops = (m.jobs k).fate.drops by rw [h.fate]

theorem released : (m'.jobs k).released = (m.jobs k).released :=
  show (m'.jobs k).fate.released = (m.jobs k).fate.released by rw [h.fate]

end Projections

/-- A job may change but for its fate. -/
theorem modJob {f : Job → Job} (hjobs : m'.jobs = m.jobs) (hn : m'.nextJob = m.nextJob)
    (hf : ∀ job : Job, (f job).fate = job.fate) : m.SameFates (m'.modJob j f) := by
  refine ⟨fun k => ?_, hn⟩
  rcases eq_or_ne k j with rfl | hne
  · simp [hf, hjobs]
  · simp [hne, hjobs]

end Mem.SameFates

namespace Mem.SameJobs

variable {m m' : Mem} {p s j : Nat}

theorem of_eq (hs : m'.scopes = m.scopes) (hns : m'.nextScope = m.nextScope)
    (hj : m'.jobs = m.jobs) (hnj : m'.nextJob = m.nextJob) : m.SameJobs m' :=
  ⟨.of_scopes hs hns, .of_jobs hj hnj⟩

theorem refl (m : Mem) : m.SameJobs m := .of_eq rfl rfl rfl rfl

theorem modScope {f : Scope → Scope} (hf : ∀ scope : Scope, (f scope).count = scope.count) :
    m.SameJobs (m.modScope s f) := ⟨.modScope rfl rfl hf, .of_jobs rfl rfl⟩

theorem modJob {f : Job → Job} (hf : ∀ job : Job, (f job).fate = job.fate) :
    m.SameJobs (m.modJob j f) := ⟨.of_scopes rfl rfl, .modJob rfl rfl hf⟩

end Mem.SameJobs

/-- A job that was never started is dropped, and gives back its ticket. -/
def Mem.dropJob (m : Mem) (j : Nat) : Mem :=
  (match (m.jobs j).home with
    | .pool _ => m
    | .scope s => dropTicket m s j).modJob j fun job => { job with drops := job.drops + 1 }

namespace Mem

variable (m : Mem) (s j k : Nat)

@[simp] theorem dropTicket_queues : (dropTicket m s j).queues = m.queues := rfl
@[simp] theorem dropTicket_nextJob : (dropTicket m s j).nextJob = m.nextJob := rfl

@[simp] theorem dropTicket_jobs :
    (dropTicket m s j).jobs =
      Function.update m.jobs j { m.jobs j with released := true } := rfl

@[simp] theorem dropJob_queues : (m.dropJob j).queues = m.queues := by
  unfold dropJob
  split <;> rfl

@[simp] theorem dropJob_nextJob : (m.dropJob j).nextJob = m.nextJob := by
  unfold dropJob
  split <;> rfl

/-- The record of a job that was dropped. -/
theorem dropJob_self :
    ((m.dropJob j).jobs j).starts = (m.jobs j).starts ∧
      ((m.dropJob j).jobs j).drops = (m.jobs j).drops + 1 ∧
      ((m.dropJob j).jobs j).home = (m.jobs j).home := by
  unfold dropJob
  split <;> simp

/-- No other job changes. -/
theorem dropJob_of_ne (hk : k ≠ j) : (m.dropJob j).jobs k = m.jobs k := by
  unfold dropJob
  split <;> simp [hk]

end Mem

/-! ## The ways a frame can step -/

/-- What a step of a frame does to the queues, the jobs and the tickets, and to what
the frame has in its hands. -/
inductive Frame.JobStep (t : Tid) (m : Mem) (f : Frame) : Mem → List Frame → Prop
  /-- Nothing moves. -/
  | quiet {m' : Mem} {fs : List Frame} (hq : m'.queues = m.queues) (hm : m.SameJobs m')
      (hc : fs.flatMap Frame.carries = f.carries) (hr : fs.flatMap Frame.runs = f.runs) :
      JobStep t m f m' fs
  /-- A job is made for a pool. -/
  | push {m' : Mem} {fs : List Frame} (p : Nat) (hq : m'.queues = m.queues)
      (ht : m.SameTickets m')
      (hjobs : m'.jobs = Function.update m.jobs m.nextJob (.fresh (.pool p)))
      (hnext : m'.nextJob = m.nextJob + 1) (hf : f.carries = [] ∧ f.runs = [])
      (hc : fs.flatMap Frame.carries = [m.nextJob]) (hr : fs.flatMap Frame.runs = [])
      (hu : ∃ u, f = .user u) : JobStep t m f m' fs
  /-- A job is made for a scope, and takes a ticket. -/
  | spawn {fs : List Frame} (s : Nat) (hf : f.carries = [] ∧ f.runs = [])
      (hmake : f.Makes s) (hc : fs.flatMap Frame.carries = [m.nextJob])
      (hr : fs.flatMap Frame.runs = []) : JobStep t m f (newJob m s) fs
  /-- A job is started. -/
  | start (j : Nat) (change : Job → Job) {fs : List Frame} (hf : f = .task j .start)
      (hfate : (change (m.jobs j)).fate =
        { (m.jobs j).fate with starts := (m.jobs j).starts + 1, runner := some t })
      (hc : fs.flatMap Frame.carries = [])
      (hr : fs.flatMap Frame.runs =
        match (m.jobs j).home with
        | .pool _ => []
        | .scope _ => [j]) :
      JobStep t m f (m.modJob j change) fs
  /-- A job that was started gives back its ticket. -/
  | finish (j s : Nat) {fs : List Frame}
      (hf : f = .task j (.dropTicket s) ∨ f = .task j (.dropTicketCanceled s))
      (hc : fs.flatMap Frame.carries = []) (hr : fs.flatMap Frame.runs = []) :
      JobStep t m f (dropTicket m s j) fs
  /-- A job that was not started is dropped. -/
  | drop (j : Nat) (js : List Nat) (hf : f = .dropJobs (j :: js)) :
      JobStep t m f (m.dropJob j) [.dropEnv j js]
  /-- A batching queue changes but for its elements. -/
  | relock (q : QueueId) (b : QueueBatching Tid Nat) {fs : List Frame}
      (hb : b.elements = (m.queues.queue q).elements)
      (hlock : (m.queues.queue q).locked = none ∨ f.holds = some (.queue q))
      (hc : fs.flatMap Frame.carries = f.carries) (hr : fs.flatMap Frame.runs = f.runs) :
      JobStep t m f (m.setQueue q b) fs
  /-- The end of a locked batching queue is taken out. -/
  | truncate (q : QueueId) (n : Nat) {fs : List Frame} (hlock : f.holds = some (.queue q))
      (hf : f.carries = [] ∧ f.runs = [])
      (hc : fs.flatMap Frame.carries = (m.queues.queue q).elements.drop n)
      (hr : fs.flatMap Frame.runs = []) :
      JobStep t m f
        (m.setQueue q { m.queues.queue q with elements := (m.queues.queue q).elements.take n }) fs
  /-- A job is put at the end of an inbox. -/
  | place (p s caller index j : Nat) {fs : List Frame} (hf : f = .assign p s caller index (.place j))
      (hc : fs.flatMap Frame.carries = []) (hr : fs.flatMap Frame.runs = []) :
      JobStep t m f
        (m.setQueue (.inbox p (batchTarget (m.pools p) caller index))
          { m.queues.queue (.inbox p (batchTarget (m.pools p) caller index)) with
            elements := (m.queues.queue (.inbox p (batchTarget (m.pools p) caller index))).elements ++
              [j] })
        fs
  /-- Containers are emptied, or created afresh. -/
  | clear {m' : Mem} {fs : List Frame} (xs : List Place) (hnodup : xs.Nodup)
      (hxs : ∀ x ∈ xs, f.Clears m x) (hm : m.SameJobs m')
      (hdeque : ∀ d, .deque d ∉ xs → m'.queues.deque d = m.queues.deque d)
      (hnew : ∀ d, .deque d ∈ xs → ∃ capacity, ∃ h : acceptsCapacity capacity,
        m'.queues.deque d = .new capacity h ∧ ∀ r, d = .helper r → capacity = 1)
      (hqueue : ∀ q, .queue q ∉ xs → m'.queues.queue q = m.queues.queue q)
      (hempty : ∀ q, .queue q ∈ xs → (m'.queues.queue q).elements = [])
      (hf : f.carries = [] ∧ f.runs = [])
      (hc : fs.flatMap Frame.carries = xs.flatMap m.lyingIn) (hr : fs.flatMap Frame.runs = []) :
      JobStep t m f m' fs

/-! ## Steps of the functions -/

section Steps

variable {t : Tid} {f : Frame} {m m' : Mem} {fs : List Frame} {p s j i : Nat}

namespace Frame.JobStep

/-- A worker's deque and its inbox are emptied, or created afresh. -/
theorem clearWorker {d : DequeId} {q : QueueId} {capacity : Nat} {h : acceptsCapacity capacity}
    {b : QueueBatching Tid Nat} (hone : ∀ r, d = .helper r → capacity = 1) (hb : b.elements = [])
    (hqueues : m'.queues = ((m.setDeque d (.new capacity h)).setQueue q b).queues)
    (hm : m.SameJobs m') (hd : f.Clears m (.deque d)) (hq : f.Clears m (.queue q))
    (hf : f.carries = [] ∧ f.runs = [])
    (hc : fs.flatMap Frame.carries = m.lyingIn (.deque d) ++ m.lyingIn (.queue q))
    (hr : fs.flatMap Frame.runs = []) : f.JobStep t m m' fs := by
  refine .clear [.deque d, .queue q] (by simp) (by simp [hd, hq]) hm (fun e he => ?_)
    (fun e he => ?_) (fun r hr => ?_) (fun r hr => ?_) hf (by simpa using hc) hr
  · have hne : e ≠ d := by simpa using he
    simp [hqueues, Queues.setDeque, hne]
  · obtain rfl : e = d := by simpa using he
    exact ⟨capacity, h, by simp [hqueues, Queues.setDeque], hone⟩
  · have hne : r ≠ q := by simpa using hr
    simp [hqueues, Queues.setQueue, hne]
  · obtain rfl : r = q := by simpa using hr
    simp [hqueues, Queues.setQueue, hb]

/-- A deque is emptied. -/
theorem clearDeque {d : DequeId} {capacity : Nat} {h : acceptsCapacity capacity}
    (hone : ∀ r, d = .helper r → capacity = 1)
    (hqueues : m'.queues = (m.setDeque d (.new capacity h)).queues) (hm : m.SameJobs m')
    (hd : f.Clears m (.deque d)) (hf : f.carries = [] ∧ f.runs = [])
    (hc : fs.flatMap Frame.carries = m.lyingIn (.deque d)) (hr : fs.flatMap Frame.runs = []) :
    f.JobStep t m m' fs := by
  refine .clear [.deque d] (by simp) (by simpa using hd) hm (fun e he => ?_)
    (fun e he => ?_) (fun r _ => by simp [hqueues]) (fun r hr => by simp at hr) hf
    (by simpa using hc) hr
  · have hne : e ≠ d := by simpa using he
    simp [hqueues, Queues.setDeque, hne]
  · obtain rfl : e = d := by simpa using he
    exact ⟨capacity, h, by simp [hqueues, Queues.setDeque], hone⟩

/-- A batching queue is emptied, or created afresh. -/
theorem clearQueue {q : QueueId} {b : QueueBatching Tid Nat} (hb : b.elements = [])
    (hqueues : m'.queues = (m.setQueue q b).queues) (hm : m.SameJobs m')
    (hq : f.Clears m (.queue q)) (hf : f.carries = [] ∧ f.runs = [])
    (hc : fs.flatMap Frame.carries = m.lyingIn (.queue q)) (hr : fs.flatMap Frame.runs = []) :
    f.JobStep t m m' fs := by
  refine .clear [.queue q] (by simp) (by simpa using hq) hm (fun e _ => by simp [hqueues])
    (fun e he => by simp at he) (fun r hr => ?_) (fun r hr => ?_) hf (by simpa using hc) hr
  · have hne : r ≠ q := by simpa using hr
    simp [hqueues, Queues.setQueue, hne]
  · obtain rfl : r = q := by simpa using hr
    simp [hqueues, Queues.setQueue, hb]

end Frame.JobStep

theorem wakeStep_jobs {pc : WakePc} (h : wakeStep t m p j pc = some (m', fs)) :
    Frame.JobStep t m (.wake p j pc) m' fs := by
  cases pc <;> simp only [wakeStep] at h <;> (try split at h) <;> cases h <;>
    first
      | exact .quiet rfl (.of_eq rfl rfl rfl rfl) rfl rfl
      | exact .quiet rfl ⟨.of_scopes rfl rfl, .modJob rfl rfl fun _ => rfl⟩ rfl rfl

theorem scopeStep_jobs {spurious : Bool} {ctx ctx' : Context} {pc : ScopePc}
    (h : scopeStep t spurious m ctx p s pc = some (m', ctx', fs))
    (hblank : ∀ x, (Frame.scope p s pc).Creates m x → m.lyingIn x = []) :
    Frame.JobStep t m (.scope p s pc) m' fs := by
  cases pc <;> simp only [scopeStep] at h <;> (repeat' split at h) <;> cases h <;>
    first
      | exact .quiet rfl (.of_eq rfl rfl rfl rfl) rfl rfl
      | exact .quiet rfl (.modScope fun _ => rfl) rfl rfl
      | skip
  case h_2.refl =>
    have hd := hblank (.deque (.helper s)) (.inl rfl)
    have hq := hblank (.queue (.helperInbox s)) (.inr rfl)
    refine .clearWorker (fun _ _ => rfl) rfl rfl (.of_eq rfl rfl rfl rfl) (.inl rfl) (.inr rfl)
      ⟨rfl, rfl⟩ ?_ rfl
    rw [hd, hq]
    rfl
  case h_1.refl =>
    exact .clearWorker (fun _ _ => rfl) rfl rfl (.of_eq rfl rfl rfl rfl) (.inl rfl) (.inr rfl)
      ⟨rfl, rfl⟩ (List.append_nil _) rfl

theorem taskStep_jobs {pc : TaskPc} (h : taskStep t m j pc = some (m', fs)) :
    Frame.JobStep t m (.task j pc) m' fs := by
  cases pc <;> simp only [taskStep] at h <;> (try split at h) <;> cases h <;>
    first
      | exact .quiet rfl (.of_eq rfl rfl rfl rfl) rfl rfl
      | exact .quiet rfl (.modScope fun _ => rfl) rfl rfl
      | exact .quiet rfl (.modJob fun _ => rfl) rfl rfl
      | exact .finish j _ (.inl rfl) rfl rfl
      | exact .finish j _ (.inr rfl) rfl rfl
      | exact .start j _ rfl rfl rfl (by rename_i hhome; rw [hhome]; rfl)

theorem inboxesStep_jobs {caller index : Nat} {pc : InboxPc}
    (h : inboxesStep t m p s caller index pc = some (m', fs)) :
    Frame.JobStep t m (.inboxes p s caller index pc) m' fs := by
  cases pc <;> simp only [inboxesStep] at h <;> (try split at h) <;> cases h
  · exact .quiet rfl (.refl m) rfl rfl
  · exact .quiet rfl (.refl m) rfl rfl
  · exact .relock _ _ rfl (.inl ‹_›) rfl rfl
  · exact .quiet rfl (.refl m) rfl rfl
  · exact .truncate _ _ rfl ⟨rfl, rfl⟩ (List.append_nil _) rfl
  · exact .relock _ _ rfl (.inr rfl) rfl rfl
  · exact .relock _ _ rfl (.inr rfl) rfl rfl

theorem assignStep_jobs {caller index : Nat} {pc : AssignPc}
    (h : assignStep m p s caller index pc = some (m', fs)) :
    Frame.JobStep t m (.assign p s caller index pc) m' fs := by
  cases pc <;> simp only [assignStep] at h <;> cases h
  · exact .quiet rfl (.refl m) rfl rfl
  · exact .spawn s ⟨rfl, rfl⟩ rfl rfl rfl
  · exact .place p s caller index _ rfl rfl rfl

theorem publishStep_jobs {pc : PublishPc} (h : publishStep t m p s pc = some (m', fs)) :
    Frame.JobStep t m (.publish p s pc) m' fs := by
  rcases pc with _ | _ | ⟨kept, _ | ⟨i, rest⟩⟩ | _ | _ | _ <;> simp only [publishStep] at h <;>
    (try split at h) <;> cases h <;>
    first
      | exact .quiet rfl (.of_eq rfl rfl rfl rfl) rfl rfl
      | exact .quiet rfl ⟨.modScope rfl rfl fun _ => rfl, .of_jobs rfl rfl⟩ rfl rfl

theorem sleepStep_jobs {spurious : Bool} {pc : SleepPc}
    (h : sleepStep t spurious m p i pc = some (m', fs)) :
    Frame.JobStep t m (.sleep p i pc) m' fs := by
  cases pc <;> simp only [sleepStep] at h <;> (repeat' split at h) <;> cases h <;>
    exact .quiet rfl (.of_eq rfl rfl rfl rfl) rfl rfl

theorem newPoolStep_jobs {spurious : Bool} {pc : NewPc}
    (h : newPoolStep t spurious m p pc = some (m', fs))
    (hblank : ∀ x, (Frame.newPool p pc).Creates m x → m.lyingIn x = []) :
    Frame.JobStep t m (.newPool p pc) m' fs := by
  have hworker : ∀ {i}, [] = m.lyingIn (.deque (.slot p i)) ++ m.lyingIn (.queue (.inbox p i)) := by
    intro i
    rw [hblank _ ⟨i, .inl rfl⟩, hblank _ ⟨i, .inr rfl⟩]
    rfl
  cases pc <;> simp only [newPoolStep] at h <;> (repeat' split at h) <;> cases h <;>
    first
      | exact .quiet rfl (.of_eq rfl rfl rfl rfl) rfl rfl
      | exact .clearWorker (by simp) rfl rfl (.of_eq rfl rfl rfl rfl) ⟨_, .inl rfl⟩ ⟨_, .inr rfl⟩
          ⟨rfl, rfl⟩ hworker rfl

theorem shutdownStep_jobs {handles workerCount : Nat} {pc : ShutdownPc}
    (h : shutdownStep m p handles workerCount pc = some (m', fs)) :
    Frame.JobStep t m (.shutdown p handles workerCount pc) m' fs := by
  cases pc <;> simp only [shutdownStep] at h <;> (repeat' split at h) <;> cases h <;>
    first
      | exact .quiet rfl (.of_eq rfl rfl rfl rfl) rfl rfl
      | exact .clearDeque (by simp) rfl (.of_eq rfl rfl rfl rfl) rfl ⟨rfl, rfl⟩ (List.append_nil _) rfl
      | exact .clearQueue rfl rfl (.of_eq rfl rfl rfl rfl) rfl ⟨rfl, rfl⟩ (List.append_nil _) rfl

theorem dropPoolStep_jobs {pc : DropPc} (h : dropPoolStep m p pc = some (m', fs)) :
    Frame.JobStep t m (.dropPool p pc) m' fs := by
  cases pc <;> simp only [dropPoolStep] at h <;> cases h
  · exact .clearQueue rfl rfl (.of_eq rfl rfl rfl rfl) rfl ⟨rfl, rfl⟩ (List.append_nil _) rfl
  · exact .quiet rfl (.of_eq rfl rfl rfl rfl) rfl rfl

/-- User code makes jobs for pools, and the shared queue of a pool. -/
theorem userStep_jobs {u : UserCode} {a : UserAct} (h : userStep t m u a = some (m', fs))
    (hblank : ∀ x, (Frame.user u).Creates m x → m.lyingIn x = []) :
    Frame.JobStep t m (.user u) m' fs := by
  rcases userStep_cases h with ⟨o, he⟩ | ⟨fs', hc, rfl⟩
  · unfold userEnd at he
    split at he <;> (try split at he) <;> cases he <;>
      first
        | exact .quiet rfl (.of_eq rfl rfl rfl rfl) rfl rfl
        | exact .quiet rfl (.modScope fun _ => rfl) rfl rfl
        | exact .quiet rfl (.modJob fun _ => rfl) rfl rfl
  · cases a <;> simp only [userCall, enterScope] at hc <;> (try split at hc) <;> cases hc <;>
      first
        | exact .push _ rfl (.of_scopes rfl rfl) rfl rfl ⟨rfl, rfl⟩ rfl rfl ⟨u, rfl⟩
        | exact .quiet rfl ⟨.newScope rfl rfl, .of_jobs rfl rfl⟩ rfl rfl
        | exact .quiet rfl (.modScope fun _ => rfl) rfl rfl
        | exact .quiet rfl (.of_eq rfl rfl rfl rfl) rfl rfl
        | exact .clearQueue rfl rfl (.of_eq rfl rfl rfl rfl) rfl ⟨rfl, rfl⟩
            (by rw [hblank _ rfl]; rfl) rfl

/-- Every step of a frame is one of the ways, if what it creates afresh is empty. -/
theorem Frame.step_jobs {c : Choice} {ctx ctx' : Context}
    (hs : f.step t c m ctx = some (m', ctx', fs))
    (hblank : ∀ x, f.Creates m x → m.lyingIn x = []) : f.JobStep t m m' fs := by
  cases f <;> simp only [Frame.step, keep_eq, keepMem_eq] at hs
  case user u =>
    split at hs
    · exact userStep_jobs (keep_eq.mp hs).1 hblank
    · cases hs
  case callDone =>
    cases hs
    exact .quiet rfl (.of_eq rfl rfl rfl rfl) rfl rfl
  case spawnDone =>
    cases hs
    exact .quiet rfl (.modScope fun _ => rfl) rfl rfl
  case wake => exact wakeStep_jobs hs.1
  case spawn p s pc =>
    obtain ⟨hs, -⟩ := hs
    cases pc <;> simp only [spawnStep] at hs <;> (try split at hs) <;> cases hs
    · exact .spawn s ⟨rfl, rfl⟩ rfl rfl rfl
    · exact .quiet rfl (.refl m) rfl rfl
  case scope => exact scopeStep_jobs hs hblank
  case runUntil pc =>
    obtain ⟨hs, rfl, -⟩ := hs
    cases pc <;> simp only [runUntilStep] at hs <;> (try split at hs) <;> cases hs <;>
      exact .quiet rfl (.refl _) rfl rfl
  case steal pc =>
    obtain ⟨hs, rfl, -⟩ := hs
    cases pc <;> simp only [stealStep] at hs <;> (repeat' split at hs) <;> cases hs <;>
      exact .quiet rfl (.refl _) rfl rfl
  case task => exact taskStep_jobs hs.1
  case batch pc =>
    obtain ⟨hs, rfl, -⟩ := hs
    cases pc <;> simp only [batchStep] at hs <;> cases hs
    exact .quiet rfl (.refl _) rfl rfl
  case inboxes => exact inboxesStep_jobs hs.1
  case assign => exact assignStep_jobs hs.1
  case publish => exact publishStep_jobs hs.1
  case loop pc =>
    cases pc <;> simp only [loopStep] at hs <;> (try split at hs) <;> cases hs <;>
      exact .quiet rfl (.of_eq rfl rfl rfl rfl) rfl rfl
  case sleep => exact sleepStep_jobs hs.1
  case newPool => exact newPoolStep_jobs hs.1 hblank
  case shutdown => exact shutdownStep_jobs hs.1
  case dropPool => exact dropPoolStep_jobs hs.1
  case dropJobs js =>
    obtain ⟨hs, -⟩ := hs
    cases js with
    | nil =>
        cases hs
        exact .quiet rfl (.refl m) rfl rfl
    | cons j js =>
        cases hs
        exact .drop j js rfl
  case dropEnv j js =>
    cases hs
    exact .quiet rfl (.modJob fun _ => rfl) (List.append_nil _) rfl
  all_goals cases hs

end Steps

/-! ## Queue operations and results -/

section Calls

variable {m : Mem} {ctx : Context} {f f' : Frame} {q : QueueCall DequeId QueueId Nat}

/-- What a call is given: the job its frame had in its hands. -/
theorem Frame.call_carries (h : f.call m ctx = some (q, f')) (queues : Queues DequeId QueueId Tid Nat) :
    (Op.start q).hands queues = f.carries ∧ f'.carries = [] ∧ f'.runs = f.runs := by
  unfold Frame.call at h
  split at h <;> (try split at h) <;> cases h <;> exact ⟨rfl, rfl, rfl⟩

/-- What a call gives back is in the hands of the frames that go on. -/
theorem Frame.answer_carries {r : QueueRes Nat} (h : f.Waits ctx q) (hr : q.Returns r) :
    (f.answer r).flatMap Frame.carries = r.elements ∧ f.carries = [] ∧
      (f.answer r).flatMap Frame.runs = [] ∧ f.runs = [] := by
  unfold Frame.Waits at h
  split at h
  case h_1 =>
    subst h
    obtain rfl := hr
    exact ⟨rfl, rfl, rfl, rfl⟩
  case h_2 =>
    obtain ⟨-, rfl⟩ := h
    obtain rfl | rfl := hr <;> exact ⟨rfl, rfl, rfl, rfl⟩
  case h_3 | h_4 =>
    subst h
    obtain ⟨_ | j, rfl⟩ := hr <;> exact ⟨rfl, rfl, rfl, rfl⟩
  case h_5 =>
    obtain ⟨max, rfl⟩ := h
    obtain ⟨n, rfl⟩ := hr
    simp only [Frame.answer]
    split <;> exact ⟨rfl, rfl, rfl, rfl⟩
  case h_6 =>
    obtain ⟨i, rfl⟩ := h
    obtain ⟨_ | j, rfl⟩ := hr <;> exact ⟨rfl, rfl, rfl, rfl⟩
  case h_7 =>
    obtain ⟨i, rfl⟩ := h
    obtain ⟨n, rfl⟩ := hr
    exact ⟨rfl, rfl, rfl, rfl⟩
  case h_8 =>
    obtain ⟨i, max, rfl⟩ := h
    obtain ⟨_ | _ | n, rfl⟩ := hr <;> exact ⟨rfl, rfl, rfl, rfl⟩
  case h_9 =>
    subst h
    obtain ⟨n, rfl⟩ := hr
    simp only [Frame.answer]
    split <;> exact ⟨rfl, rfl, rfl, rfl⟩
  case h_10 => exact h.elim

/-- A result leaves the jobs of the frame it reaches alone. -/
theorem Frame.resume_carries (f : Frame) (o : Outcome) :
    (f.resume o).flatMap Frame.carries = f.carries ∧ (f.resume o).flatMap Frame.runs = f.runs := by
  unfold Frame.resume
  split <;> (try split) <;> first | exact ⟨rfl, rfl⟩ | exact ⟨List.append_nil _, List.append_nil _⟩

end Calls

end XynokConcurrency
