import XynokConcurrency.Lib.Holdings
import XynokConcurrency.Collection.SpmcHandles

/-!
# Delivery through the handles of the ring

What the calls of a run say they have pushed, and what they have handed out.  Two
overlapping pushes write the same slot, and one of the two elements is lost although both
calls return Ok; the handles do not prevent that.  While pushes do not overlap, and no
claim is won by a word that was loaded a wrap ago, every element is delivered once or
still in the ring.

Main results:

- Theorem {lit}`overlapping_pushes_lose`: two handles lose an element.
- Theorem {lit}`orderly_delivery`: orderly runs deliver every element once.
-/

namespace XynokConcurrency

namespace Spmc

variable {τ α : Type}

/-! ## What the calls say -/

/-- The elements a producer call has pushed, by its result. -/
def Call.accepted : Call α → Res α → List α
  | .push val, .pushed => [val]
  | .pushBatch _ vals, .moved n _ => vals.take n
  | _, _ => []

/-- The elements a consumer call has handed out, by its result. -/
def Call.delivered : Call α → Res α → List α
  | .pop, .popped (some val) => [val]
  | .popBatch _ dst, .taken _ (.vec dst') => dst'.drop dst.length
  | .popBatchTo _ _, .taken _ (.buffer _ writes) => writes.map Prod.snd
  | _, _ => []

/-- The calls under way, and what the calls that have returned said. -/
structure Ledger (τ α : Type) where
  pending : τ → Option (Call α)
  accepted : List α
  delivered : List α

/-- A call begins or returns. -/
def Ledger.note [DecidableEq τ] (g : Ledger τ α) : τ × Choice α → Ledger τ α
  | (t, .call c) => { g with pending := Function.update g.pending t (some c) }
  | (t, .ret r) =>
      match g.pending t with
      | some c =>
          ⟨Function.update g.pending t none, g.accepted ++ c.accepted r,
            g.delivered ++ c.delivered r⟩
      | none => g
  | _ => g

/-- The ledger of a run. -/
def ledger [DecidableEq τ] (ls : List (τ × Choice α)) : Ledger τ α :=
  ls.foldl Ledger.note ⟨fun _ => none, [], []⟩

/-- When no call is under way, the elements pushed are the elements handed out and the
elements in the ring, each as often. -/
def DeliversOnce [DecidableEq τ] (ls : List (τ × Choice α))
    (s : Machine.Shared τ (Mem α) (Thread α)) : Prop :=
  (∀ t, (ledger ls).pending t = none) →
    ∃ content, s.mem.ring.dropCells = content.map some ∧
      (ledger ls).accepted.Perm ((ledger ls).delivered ++ content)

/-! ## Two producers -/

/-- A ring of two slots and two threads. -/
def sharedRing : Machine.Shared Bool (Mem Nat) (Thread Nat) :=
  ⟨⟨.new 2 acceptsRingOfTwo, 0⟩, fun _ => ⟨.idle, 0⟩⟩

/-- Both threads push through handles of their own, and both read the same tail. -/
def overlappingPushes : List (Bool × Choice Nat) :=
  [(false, .call (.push 5)), (false, .tick false), (false, .tick false), (true, .call (.push 6)),
    (true, .tick false), (true, .tick false), (false, .tick false), (true, .tick false),
    (false, .commit), (true, .commit), (false, .ret .pushed), (true, .ret .pushed)]

/-- Both pushes return Ok, and the ring holds one element. -/
theorem overlapping_pushes_lose :
    ¬ ∀ (s₀ s : Machine.Shared Bool (Mem Nat) (Thread Nat)) (ls : List (Bool × Choice Nat)),
      (ringMachine 2 acceptsRingOfTwo).init s₀ →
        (ringMachine 2 acceptsRingOfTwo).run s₀ ls = some s → DeliversOnce ls s := by
  intro h
  have hsome : ((ringMachine 2 acceptsRingOfTwo).run sharedRing overlappingPushes).isSome := by
    decide +kernel
  have hreturned : ∀ t, ((ledger overlappingPushes).pending t).isNone := by
    decide +kernel
  have hone : ((ringMachine 2 acceptsRingOfTwo).after sharedRing
      overlappingPushes).mem.ring.dropCells.length = 1 := by
    decide +kernel
  obtain ⟨content, hcells, hperm⟩ := h sharedRing _ overlappingPushes ⟨0, rfl⟩
    (Machine.run_after hsome) fun t => Option.isNone_iff_eq_none.mp (hreturned t)
  have hlen := congrArg List.length hcells
  rw [hone, List.length_map] at hlen
  have htwo := hperm.length_eq
  rw [List.length_append, ← hlen] at htwo
  exact absurd htwo (by decide)

/-! ## The ledger of the loose queue -/

/-- Elements are taken out one by one. -/
theorem Call.delivered_result {c : Call α} {max : Nat} {k : Taking α} (vals : List α)
    (h : c.claiming = some (max, k)) (hle : vals.length ≤ max) :
    c.delivered ((k.putAll 0 vals).result vals.length) = vals := by
  have hvec : ∀ (vals : List α) (offset : Nat) (dst : List α),
      (Taking.batch (.vec dst)).putAll offset vals = .batch (.vec (dst ++ vals)) := by
    intro vals
    induction vals with
    | nil => simp [Taking.putAll]
    | cons val vals ih => simp [Taking.putAll, Taking.put, Batching.Sink.put, ih]
  have hbuffer : ∀ (vals : List α) (offset : Nat) (cursor : UInt32) (writes : List (UInt32 × α)),
      ∃ more, (Taking.batch (.buffer cursor writes)).putAll offset vals =
        .batch (.buffer cursor (writes ++ more)) ∧ more.map Prod.snd = vals := by
    intro vals
    induction vals with
    | nil =>
        intro offset cursor writes
        exact ⟨[], by simp [Taking.putAll], rfl⟩
    | cons val vals ih =>
        intro offset cursor writes
        obtain ⟨more, hput, hmap⟩ :=
          ih (offset + 1) cursor (writes ++ [(cursor + UInt32.ofNat offset, val)])
        refine ⟨(cursor + UInt32.ofNat offset, val) :: more, ?_, by simp [hmap]⟩
        simpa [Taking.putAll, Taking.put, Batching.Sink.put] using hput
  cases c with
  | pop =>
      cases h
      obtain _ | ⟨val, _ | ⟨val', vals⟩⟩ := vals
      · rfl
      · rfl
      · simp at hle
  | popBatch max' dst =>
      cases h
      simp [hvec, Taking.result, Call.delivered]
  | popBatchTo max' cursor =>
      cases h
      obtain ⟨more, hput, hmap⟩ := hbuffer vals 0 cursor []
      simp [hput, Taking.result, Call.delivered, hmap]
  | _ => cases h

/-- A consumer call accepts nothing. -/
theorem Call.accepted_of_claiming {c : Call α} (h : c.claiming.isSome = true) (r : Res α) :
    c.accepted r = [] := by
  cases c <;> first | rfl | cases h

/-- A producer call has pushed what the specification appends. -/
theorem Call.accepted_of_offering {c : Call α} {max n : Nat} {vals : List α} {res : Nat → Res α}
    (h : c.offering = some (max, vals, res)) (hpos : 0 < n) (hle : n ≤ max) :
    c.accepted (res n) = vals.take n ∧ c.delivered (res n) = [] := by
  cases c with
  | push val =>
      cases h
      obtain rfl : n = 1 := by omega
      exact ⟨rfl, rfl⟩
  | pushBatch max' vals' =>
      cases h
      exact ⟨rfl, rfl⟩
  | _ => cases h

/-- A call that moves nothing says so. -/
theorem Call.Answers.nothing {c : Call α} {seen : Bool} {r : Res α} (h : c.Answers seen r) :
    c.accepted r = [] ∧ c.delivered r = [] := by
  cases c with
  | push val =>
      obtain ⟨-, rfl⟩ := h
      exact ⟨rfl, rfl⟩
  | pushBatch max vals =>
      obtain ⟨-, rfl⟩ := h
      exact ⟨rfl, rfl⟩
  | len =>
      obtain ⟨n, rfl⟩ := h
      exact ⟨rfl, rfl⟩
  | _ =>
      obtain ⟨max, k, hk, -, rfl⟩ := h
      exact ⟨Call.accepted_of_claiming (by rw [hk]; rfl) _,
        Call.delivered_result [] hk (Nat.zero_le _)⟩

/-- What a call under way has moved and has not said yet. -/
def unsaid (f : Call α → Res α → List α) : Option (Call α) → Status α → List α
  | some c, .holding _ r | some c, .done r => f c r
  | _, _ => []

/-- The calls of the ledger are those under way. -/
def Status.Of : Status α → Option (Call α) → Prop
  | .idle, call => call = none
  | .pending c _, call => call = some c
  | .holding _ _, call => ∃ c, call = some c ∧ c.claiming.isSome = true
  | .done _, call => ∃ c, call = some c

/-- What is booked is what was said, and what the calls under way have not said yet. -/
def Owes (f : Call α → Res α → List α) (pending : τ → Option (Call α)) (status : τ → Status α)
    (said booked : List α) : Prop :=
  ∃ rest, Total (fun t => unsaid f (pending t) (status t)) rest ∧ booked.Perm (said ++ rest)

/-- The books of one call change: what it moves now is what it says now or owes then. -/
theorem Owes.move [DecidableEq τ] {f : Call α → Res α → List α} {pending : τ → Option (Call α)}
    {status : τ → Status α} {said booked : List α} (h : Owes f pending status said booked) (t : τ)
    (call : Option (Call α)) (st : Status α) (told moved : List α)
    (hmove : moved ++ unsaid f (pending t) (status t) = told ++ unsaid f call st) :
    Owes f (Function.update pending t call) (Function.update status t st) (said ++ told)
      (booked ++ moved) := by
  obtain ⟨rest, htotal, hperm⟩ := h
  obtain ⟨others, hrest, hset⟩ := htotal.split t
  refine ⟨unsaid f call st ++ others, ?_, ?_⟩
  · have hfun : (fun x => unsaid f (Function.update pending t call x)
        (Function.update status t st x)) =
          Function.update (fun x => unsaid f (pending x) (status x)) t (unsaid f call st) := by
      funext x
      by_cases hx : x = t
      · subst hx
        simp
      · simp [hx]
    rw [hfun]
    exact hset _
  · have hall : (booked ++ moved).Perm
        (said ++ ((unsaid f (pending t) (status t) ++ others) ++ moved)) := by
      rw [← List.append_assoc]
      exact (hperm.trans (hrest.append_left said)).append_right moved
    have hfront : (said ++ ((unsaid f (pending t) (status t) ++ others) ++ moved)).Perm
        (said ++ (moved ++ (unsaid f (pending t) (status t) ++ others))) :=
      List.perm_append_comm.append_left said
    refine (hall.trans hfront).trans (.of_eq ?_)
    rw [← List.append_assoc moved, hmove]
    simp

/-- The ledger of a trace agrees with the books of the queue. -/
structure Balances (g : Ledger τ α) (b : Fifo τ α) : Prop where
  calls : ∀ t, (b.status t).Of (g.pending t)
  accepted : Owes Call.accepted g.pending b.status g.accepted b.accepted
  delivered : Owes Call.delivered g.pending b.status g.delivered b.batches.flatten

/-- Moving one thread keeps the calls of the ledger those under way. -/
theorem Status.Of.update [DecidableEq τ] {status : τ → Status α} {pending : τ → Option (Call α)}
    (h : ∀ x, (status x).Of (pending x)) {t : τ} {st : Status α} {call : Option (Call α)}
    (ht : st.Of call) (x : τ) :
    (Function.update status t st x).Of (Function.update pending t call x) := by
  by_cases hx : x = t
  · subst hx
    simpa using ht
  · simpa [hx] using h x

section Trace

variable [DecidableEq τ] {capacity : Nat} {g : Ledger τ α} {b b' : Fifo τ α}

/-- One call moves: it is booked what it now says or owes. -/
theorem Balances.move (h : Balances g b) (t : τ) (call : Option (Call α)) (st : Status α)
    (told moved told' moved' : List α) (hof : st.Of call)
    (haccepted : moved ++ unsaid Call.accepted (g.pending t) (b.status t) =
      told ++ unsaid Call.accepted call st)
    (hdelivered : moved' ++ unsaid Call.delivered (g.pending t) (b.status t) =
      told' ++ unsaid Call.delivered call st)
    (hstatus : b'.status = Function.update b.status t st) (hinto : b'.accepted = b.accepted ++ moved)
    (hout : b'.batches.flatten = b.batches.flatten ++ moved') :
    Balances ⟨Function.update g.pending t call, g.accepted ++ told, g.delivered ++ told'⟩ b' := by
  refine ⟨fun x => ?_, ?_, ?_⟩
  · rw [hstatus]
    exact Status.Of.update h.calls hof x
  · rw [hstatus, hinto]
    exact h.accepted.move t call st told moved haccepted
  · rw [hstatus, hout]
    exact h.delivered.move t call st told' moved' hdelivered

/-- One call moves, and nothing begins or returns. -/
theorem Balances.stay (h : Balances g b) {t : τ} {call : Call α} (hcall : g.pending t = some call)
    (st : Status α) (moved moved' : List α) (hof : st.Of (some call))
    (haccepted : moved ++ unsaid Call.accepted (some call) (b.status t) =
      unsaid Call.accepted (some call) st)
    (hdelivered : moved' ++ unsaid Call.delivered (some call) (b.status t) =
      unsaid Call.delivered (some call) st)
    (hstatus : b'.status = Function.update b.status t st) (hinto : b'.accepted = b.accepted ++ moved)
    (hout : b'.batches.flatten = b.batches.flatten ++ moved') : Balances g b' := by
  have hmove := h.move t (some call) st [] moved [] moved' hof (by rw [hcall]; exact haccepted)
    (by rw [hcall]; exact hdelivered) hstatus hinto hout
  rw [← hcall, Function.update_eq_self, List.append_nil, List.append_nil] at hmove
  exact hmove

/-- A call answers that it has moved nothing. -/
theorem Balances.silent (h : Balances g b) (hstep : (looseFifo capacity).step b none b') :
    Balances g b' := by
  obtain ⟨t, c, r, hst, hanswer, rfl⟩ := hstep
  have hcall := h.calls t
  rw [hst] at hcall
  obtain ⟨haccepted, hdelivered⟩ := hanswer.nothing
  refine h.stay hcall (.done r) [] [] ⟨c, rfl⟩ ?_ ?_ rfl (List.append_nil _).symm
    (List.append_nil _).symm
  · rw [hst]
    exact haccepted.symm
  · rw [hst]
    exact hdelivered.symm

/-- An observed step is noted. -/
theorem Balances.observe (h : Balances g b) {e : τ × Choice α}
    (hstep : (looseFifo capacity).step b (some e) b') : Balances (g.note e) b' := by
  obtain ⟨t, ch⟩ := e
  have hof := h.calls t
  cases ch with
  | call c =>
      obtain ⟨hst, rfl⟩ := hstep
      rw [hst] at hof
      have hmove : Balances ⟨_, _, _⟩ (b.setStatus t (.pending c false)) :=
        h.move t (some c) (.pending c false) [] [] [] [] rfl (by rw [hst, hof]; rfl)
          (by rw [hst, hof]; rfl) rfl (List.append_nil _).symm (List.append_nil _).symm
      simpa [Ledger.note] using hmove
  | tick spurious => exact hstep.elim
  | claim =>
      obtain ⟨c, max, k, n, hst, hclaim, hmax, hlen, rfl⟩ := hstep
      rw [hst] at hof
      have htaken : (b.list.take n).length = n := by rw [List.length_take]; omega
      have hdelivered := Call.delivered_result (b.list.take n) hclaim (by omega)
      rw [htaken] at hdelivered
      have hconsumer : c.claiming.isSome = true := by rw [hclaim]; rfl
      refine h.stay hof (.holding n ((k.putAll 0 (b.list.take n)).result n)) [] (b.list.take n)
        ⟨c, rfl, hconsumer⟩ ?_ ?_ rfl (List.append_nil _).symm ?_
      · rw [hst]
        exact (Call.accepted_of_claiming hconsumer _).symm
      · rw [hst]
        exact (List.append_nil _).trans hdelivered.symm
      · simp
  | publish =>
      obtain ⟨n, r, hst, rfl⟩ := hstep
      rw [hst] at hof
      obtain ⟨c, hcall, -⟩ := hof
      refine h.stay hcall (.done r) [] [] ⟨c, rfl⟩ ?_ ?_ rfl (List.append_nil _).symm
        (List.append_nil _).symm
      · rw [hst]
        rfl
      · rw [hst]
        rfl
  | commit =>
      obtain ⟨c, max, vals, res, n, hst, hoffer, hpos, hmax, -, -, rfl⟩ := hstep
      rw [hst] at hof
      obtain ⟨haccepted, hdelivered⟩ := Call.accepted_of_offering hoffer hpos hmax
      refine h.stay hof (.done (res n)) (vals.take n) [] ⟨c, rfl⟩ ?_ ?_ rfl rfl
        (List.append_nil _).symm
      · rw [hst]
        exact (List.append_nil _).trans haccepted.symm
      · rw [hst]
        exact hdelivered.symm
  | ret r =>
      obtain ⟨hst, rfl⟩ := hstep
      rw [hst] at hof
      obtain ⟨c, hcall⟩ := hof
      have hmove : Balances ⟨_, _, _⟩ (b.setStatus t .idle) :=
        h.move t none .idle (c.accepted r) [] (c.delivered r) [] rfl
          (by rw [hst, hcall]; exact (List.append_nil _).symm)
          (by rw [hst, hcall]; exact (List.append_nil _).symm) rfl (List.append_nil _).symm
          (List.append_nil _).symm
      simpa [Ledger.note, hcall] using hmove

/-- The ledger of every trace agrees with the books. -/
theorem Balances.trace {es : List (τ × Choice α)} (h : (looseFifo capacity).Trace b es) :
    Balances (ledger es) b := by
  induction h with
  | init hinit =>
      obtain rfl := hinit
      exact ⟨fun _ => rfl, ⟨[], Total.nil fun _ => rfl, .refl _⟩,
        ⟨[], Total.nil fun _ => rfl, .refl _⟩⟩
  | silent _ hstep ih => exact ih.silent hstep
  | observe _ hstep ih =>
      rw [ledger, List.foldl_append]
      exact ih.observe hstep

/-- The ledger takes no note of what is not observed. -/
theorem ledger_observations (ls : List (τ × Choice α)) :
    ledger (Machine.observations event ls) = ledger ls := by
  have hfold : ∀ (ls : List (τ × Choice α)) (g : Ledger τ α),
      (Machine.observations event ls).foldl Ledger.note g = ls.foldl Ledger.note g := by
    intro ls
    induction ls with
    | nil => exact fun _ => rfl
    | cons l ls ih =>
        intro g
        obtain ⟨t, ch⟩ := l
        cases ch <;> exact ih _
  exact hfold ls _

end Trace

/-! ## Orderly runs -/

section Runs

variable [DecidableEq τ] [DecidableEq α] {capacity : Nat}
  {s₀ s : Machine.Shared τ (Mem α) (Thread α)} {ls : List (τ × Choice α)}

/-- Every orderly run of the ring has a run of the loose queue with the same calls, claims,
publications, stores of the tail and returns; there every accepted element lies in one
claimed batch or in the list.  So when no call is under way, the elements pushed are those
handed out and those in the ring, each as often. -/
theorem orderly_delivery (hcap : acceptsCapacity capacity)
    (hinit : (ringMachine capacity hcap).init s₀)
    (hrun : (ringMachine capacity hcap).run s₀ ls = some s)
    (hok : (ringMachine capacity hcap).Admits Orderly s₀ ls) :
    (∃ b, (looseFifo capacity).Trace b (Machine.observations event ls) ∧
      b.accepted = b.batches.flatten ++ b.list ∧ s.mem.ring.dropCells = b.list.map some) ∧
      DeliversOnce ls s := by
  classical
  obtain ⟨b, htrace, -, e, b₀, r, hshow, href⟩ :=
    (handleSimulation capacity hcap).trace hinit (hok.run_restrict hrun)
  have hbooks : b.accepted = b.batches.flatten ++ b.list := by
    rw [hshow.books.accepted, hshow.books.batches, hshow.books.list]
    exact href.accepted
  have hcells : s.mem.ring.dropCells = b.list.map some := by
    rw [← hshow.mem, href.modelled.dropCells_eq, hshow.books.list, href.list]
  refine ⟨⟨b, htrace, hbooks, hcells⟩, fun hreturned => ⟨b.list, hcells, ?_⟩⟩
  have hbalance := Balances.trace htrace
  rw [ledger_observations] at hbalance
  have hnone : ∀ f : Call α → Res α → List α, ∀ t,
      unsaid f ((ledger ls).pending t) (b.status t) = [] := by
    intro f t
    rw [hreturned t]
    rfl
  obtain ⟨rest, htotal, haccepted⟩ := hbalance.accepted
  obtain ⟨rest', htotal', hdelivered⟩ := hbalance.delivered
  rw [htotal.eq_nil (hnone _), List.append_nil] at haccepted
  rw [htotal'.eq_nil (hnone _), List.append_nil] at hdelivered
  rw [hbooks] at haccepted
  exact haccepted.symm.trans (hdelivered.append_right b.list)

/-- Two handles push one after the other.  Then both threads pop, the first claim makes the
other one fail its CAS and go round again, and the claims are published in turn.  One more
element is pushed in the end. -/
def pushesInTurn : List (Bool × Choice Nat) :=
  [(false, .call (.push 5)), (false, .tick false), (false, .tick false), (false, .tick false),
    (false, .commit), (false, .ret .pushed), (true, .call (.push 6)), (true, .tick false),
    (true, .tick false), (true, .tick false), (true, .commit), (true, .ret .pushed),
    (true, .call .pop), (true, .tick false), (true, .tick false), (false, .call .pop),
    (false, .tick false), (false, .tick false), (false, .claim), (true, .tick false),
    (true, .tick false), (true, .claim), (true, .tick false), (false, .tick false),
    (false, .tick false), (false, .publish), (true, .tick false), (true, .publish),
    (true, .ret (.popped (some 6))), (false, .ret (.popped (some 5))), (true, .call (.push 7)),
    (true, .tick false), (true, .tick false), (true, .tick false), (true, .commit),
    (true, .ret .pushed)]

/-- The first two elements are handed out, and the last one is in the ring. -/
theorem delivery_of_pushes_in_turn :
    ∃ content, ((ringMachine 2 acceptsRingOfTwo).after sharedRing
        pushesInTurn).mem.ring.dropCells = content.map some ∧
      ([5, 6, 7] : List Nat).Perm ([6, 5] ++ content) := by
  have hsome : ((ringMachine 2 acceptsRingOfTwo).run sharedRing pushesInTurn).isSome := by
    decide +kernel
  have hok : (ringMachine 2 acceptsRingOfTwo).Admits Orderly sharedRing pushesInTurn := by
    decide +kernel
  have hreturned : ∀ t, ((ledger pushesInTurn).pending t).isNone := by
    decide +kernel
  exact (orderly_delivery acceptsRingOfTwo ⟨0, rfl⟩ (Machine.run_after hsome) hok).2 fun t =>
    Option.isNone_iff_eq_none.mp (hreturned t)

end Runs

end Spmc

end XynokConcurrency
