import XynokConcurrency.ThreadPool.JobPlaces

/-!
# The life of a job

A job that was submitted waits in one spot until it is started or dropped, and it is
started or dropped once.

Main results:

- Theorem {lit}`jobsOk`: in every reachable state the jobs that wait are those that were
  neither started nor dropped, each is in one spot, and no job is started twice, dropped
  twice, or both.

Source: {lit}`thread_pool/worker_queue.rs`, {lit}`thread_pool/worker.rs`,
{lit}`thread_pool/scope.rs`, {lit}`thread_pool/mod.rs`.
-/

namespace XynokConcurrency

/-- The job waits: it was made, and neither started nor dropped. -/
def Mem.Waits (m : Mem) (j : Nat) : Prop :=
  j < m.nextJob ∧ (m.jobs j).starts = 0 ∧ (m.jobs j).drops = 0

/-- Every waiting job is in one spot, and no job is started or dropped twice. -/
structure JobsOk (s : PoolState) : Prop where
  once : HeldOnce s.held
  held : ∀ j, (∃ l, j ∈ s.held l) ↔ s.mem.Waits j
  bound : ∀ j, (s.mem.jobs j).starts + (s.mem.jobs j).drops ≤ 1
  fresh : ∀ j, s.mem.nextJob ≤ j → (s.mem.jobs j).starts = 0 ∧ (s.mem.jobs j).drops = 0

section Steps

variable {s s' : PoolState} {t : Tid} {places : List JobSpot} {new gone : List Nat}

/-- A job that comes in is held nowhere. -/
theorem JobsOk.not_held_of_new (h : JobsOk s) (hchange : JobChange t s.mem s'.mem new gone) :
    new.Nodup ∧ ∀ j ∈ new, ∀ l, j ∉ s.held l := by
  cases hchange with
  | stay | went => exact ⟨List.nodup_nil, nofun⟩
  | made =>
      refine ⟨List.nodup_singleton _, fun j hj l hl => ?_⟩
      obtain rfl := List.mem_singleton.mp hj
      exact absurd ((h.held _).mp ⟨l, hl⟩).1 (lt_irrefl _)

/-- A step keeps the books. -/
theorem JobsOk.step (h : JobsOk s) (hexchange : Exchange s.held s'.held places new gone)
    (hchange : JobChange t s.mem s'.mem new gone) : JobsOk s' := by
  obtain ⟨hnodup, hnew⟩ := h.not_held_of_new hchange
  have honce := hexchange.heldOnce h.once hnodup hnew
  have hgone := fun j => hexchange.not_held_of_gone (a := j) h.once hnodup hnew
  have hiff := fun j => hexchange.held_iff (a := j)
  cases hchange with
  | stay hstarts hdrops hhome hnext =>
      refine ⟨honce, fun j => ?_, fun j => ?_, fun j hj => ?_⟩
      · have := hiff j
        simp only [List.not_mem_nil, false_or] at this
        rw [this, h.held, Mem.Waits, Mem.Waits, hstarts, hdrops, hnext]
      · rw [hstarts, hdrops]
        exact h.bound j
      · rw [hstarts, hdrops]
        exact h.fresh j (hnext ▸ hj)
  | made home hjobs hnext =>
      have hself : (s'.mem.jobs s.mem.nextJob).starts = 0 ∧ (s'.mem.jobs s.mem.nextJob).drops = 0 := by
        rw [hjobs, Function.update_self]
        exact ⟨rfl, rfl⟩
      have hother : ∀ j, j ≠ s.mem.nextJob → s'.mem.jobs j = s.mem.jobs j := fun j hj => by
        rw [hjobs, Function.update_of_ne hj]
      refine ⟨honce, fun j => ?_, fun j => ?_, fun j hj => ?_⟩
      · have := hiff j
        simp only [List.not_mem_nil, false_or, List.mem_singleton] at this
        rw [this, h.held, Mem.Waits, Mem.Waits, hnext]
        rcases eq_or_ne j s.mem.nextJob with rfl | hj
        · simp [hself]
        · rw [hother j hj]
          have hlt : j < s.mem.nextJob + 1 ↔ j < s.mem.nextJob := by omega
          simp [hj, hlt]
      · rcases eq_or_ne j s.mem.nextJob with rfl | hj
        · omega
        · rw [hother j hj]
          exact h.bound j
      · rw [hother j (by omega)]
        exact h.fresh j (by omega)
  | went j hwent hhome hsame hnext =>
      have hwaits : s.mem.Waits j :=
        (h.held j).mp (((hiff j).mp (.inl (List.mem_singleton_self j))).resolve_left nofun)
      obtain ⟨hlt, hstarts, hdrops⟩ := hwaits
      refine ⟨honce, fun k => ?_, fun k => ?_, fun k hk => ?_⟩
      · rcases eq_or_ne k j with rfl | hk
        · refine iff_of_false (fun ⟨l, hl⟩ => hgone k (List.mem_singleton_self k) l hl) fun hw => ?_
          obtain ⟨-, hstarts', hdrops'⟩ := hw
          omega
        · have := hiff k
          simp only [List.not_mem_nil, false_or, List.mem_singleton, hk] at this
          rw [this, h.held, Mem.Waits, Mem.Waits, hsame k hk, hnext]
      · rcases eq_or_ne k j with rfl | hk
        · omega
        · rw [hsame k hk]
          exact h.bound k
      · rw [hsame k (by omega)]
        exact h.fresh k (hnext ▸ hk)

end Steps

/-- Nothing is held before the first step. -/
theorem JobsOk.initial : JobsOk ⟨.initial, Thread.initial⟩ := by
  have hnone : ∀ l, PoolState.held ⟨.initial, Thread.initial⟩ l = [] := by
    intro l
    cases l with
    | deque d => exact WorkerQueue.unclaimed_new 1 acceptsCapacity_one
    | queue q =>
        have hfree : ∀ u, (PoolState.ops ⟨.initial, Thread.initial⟩ u).holds ≠ some q := by
          intro u
          cases u <;> exact nofun
        exact avail_eq_elements (m := Mem.initial) hfree
    | hands t => cases t <;> rfl
  refine ⟨⟨fun l => ?_, fun {l l' j} hj => ?_⟩, fun j => ?_, fun j => ?_, fun j _ => ⟨rfl, rfl⟩⟩
  · rw [hnone]
    exact List.nodup_nil
  · rw [hnone] at hj
    cases hj
  · refine iff_of_false (fun ⟨l, hl⟩ => ?_) fun hw => absurd hw.1 (Nat.not_lt_zero j)
    rw [hnone] at hl
    cases hl
  · exact Nat.zero_le 1

/-- In every reachable state each waiting job is in one spot, and every other job was
started once or dropped once. -/
theorem jobsOk {s : PoolState} (hs : poolMachine.Reachable s) : JobsOk s := by
  refine hs.invariant (I := JobsOk) (fun s hinit => ?_) fun s l s' hs hok hstep => ?_
  · subst hinit
    exact .initial
  · obtain ⟨places, new, gone, hexchange, hchange, -⟩ := step_exchange hs hstep
    exact hok.step hexchange hchange

end XynokConcurrency
