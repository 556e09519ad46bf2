import Mathlib.Data.Fintype.Basic
import XynokConcurrency.ThreadPool.QueueContents

/-!
# What a steal reports

{lit}`try_steal_batch_to` documents its two failures: the source is genuinely empty, or it
still has items.  The zero-amount exit also reports a source as empty when the destination
has no free slot, and a failed CAS reports items also when they are gone by then.

Main results:

- Theorem {lit}`steal_verdicts_fail`: a full destination makes a source with an element
  look empty.
- Theorem {lit}`steal_verdicts`: with room in the destination, and while nobody takes the
  last element that a steal has sighted, both verdicts are true.
-/

namespace XynokConcurrency

open ClaimRing

variable {δ κ τ α : Type}

/-! ## The unclaimed elements and the cursors -/

/-- The cursors of a deque at one instant. -/
def WorkerQueue.cursors (q : WorkerQueue α) : CursorData :=
  ⟨q.stolen, (unpack q.anchor).2, (unpack q.anchor).1, q.buffer.mask + 1, q.buffer.mask⟩

/-- A deque has one unclaimed element for each position between blocked and the tail. -/
theorem DequesInv.unclaimed_length [DecidableEq δ] {deque : δ → WorkerQueue α}
    {ops : τ → Op δ κ α} (h : DequesInv deque ops) (d : δ) :
    (deque d).unclaimed.length = (deque d).cursors.filledSlots := by
  obtain ⟨r, hr, hm⟩ := h.ring d
  have hcap := hm.cap_lt
  have htl := hr.tail_le
  have hsb := hr.stolen_le
  have hbt := hr.blocked_le
  rw [hm.unclaimed_eq hr, hr.unclaimed_length, CursorData.filledSlots, WorkerQueue.cursors,
    hm.unpack_anchor, toNat_ofNat_sub hbt (by omega)]

/-- No element is unclaimed when blocked has come to the tail. -/
theorem DequesInv.unclaimed_eq_nil [DecidableEq δ] {deque : δ → WorkerQueue α}
    {ops : τ → Op δ κ α} (h : DequesInv deque ops) (d : δ) :
    (deque d).unclaimed = [] ↔ (unpack (deque d).anchor).1 = (unpack (deque d).anchor).2 := by
  have ht := (unpack (deque d).anchor).1.toNat_lt
  have hb := (unpack (deque d).anchor).2.toNat_lt
  rw [← List.length_eq_zero_iff, h.unclaimed_length, CursorData.filledSlots, WorkerQueue.cursors]
  refine ⟨fun hzero => UInt32.toNat_inj.mp ?_, fun heq => ?_⟩
  · simp only [UInt32.toNat_sub] at hzero
    omega
  · simp [heq]

/-! ## The last element -/

/-- The deque whose anchor a program point is about to move, the word it expects there, and
the number of elements it takes. -/
def Op.taking (spurious : Bool) : Op δ κ α → Option (δ × UInt64 × Nat)
  | .popCas d c => if spurious then none else some (d, pack c.tail c.blocked, 1)
  | .stealCas victim _ amount _ vc => some (victim, pack vc.tail vc.blocked, amount)
  | _ => none

/-- The next step of an operation takes all that is unclaimed of a deque. -/
def Op.TakesAll (o : Op δ κ α) (spurious : Bool) (q : WorkerQueue α) (d : δ) : Prop :=
  o.taking spurious = some (d, q.anchor, q.unclaimed.length)

section Steps

variable [DecidableEq δ] [DecidableEq κ] {ops : τ → Op δ κ α} {t : τ} {m m' : Queues δ κ τ α}
  {o : Op δ κ α} {spurious : Bool} {i : QInstr δ κ α (Op δ κ α)} {d : δ}

/-- The accesses that move an anchor. -/
theorem QInstr.exec_anchor {β : Type} {j : QInstr δ κ α β} {b : β}
    (hx : j.exec t m = some (m', b)) (hmoved : (m'.deque d).anchor ≠ (m.deque d).anchor) :
    (∃ n k, j = .anchorAdd d n k ∧
      (m'.deque d).anchor = (m.deque d).anchor + (UInt64.ofNat n <<< 32)) ∨
    ∃ next ok err, j = .anchorCas d (m.deque d).anchor next ok err ∧
      (m'.deque d).anchor = next := by
  have hset : ∀ e q, m' = m.setDeque e q → q.anchor = (m.deque e).anchor → False := by
    rintro e q rfl hq
    by_cases hd : d = e
    · subst hd
      exact hmoved (by simpa [Queues.setDeque] using hq)
    · exact hmoved (by simp [Queues.setDeque, hd])
  have hwrites : ∀ e q, m' = m.setDeque e q → d = e ∧ (m'.deque d).anchor = q.anchor := by
    rintro e q rfl
    by_cases hd : d = e
    · subst hd
      exact ⟨rfl, by simp [Queues.setDeque]⟩
    · exact (hmoved (by simp [Queues.setDeque, hd])).elim
  cases j with
  | anchorAdd e n k =>
      cases hx
      obtain ⟨rfl, hanchor⟩ := hwrites _ _ rfl
      exact .inl ⟨n, _, rfl, hanchor⟩
  | anchorCas e current next ok err =>
      simp only [QInstr.exec] at hx
      split at hx <;> cases hx
      · rename_i hcas
        obtain ⟨rfl, hanchor⟩ := hwrites _ _ rfl
        exact .inr ⟨next, _, err, by rw [hcas], hanchor⟩
      · exact (hmoved rfl).elim
  | slotWrite e cursor val k =>
      cases hx
      exact (hset _ _ rfl rfl).elim
  | slotTake e cursor k =>
      simp only [QInstr.exec] at hx
      split at hx <;> cases hx
      exact (hset _ _ rfl rfl).elim
  | stolenCas e current next ok err =>
      simp only [QInstr.exec] at hx
      split at hx <;> cases hx
      · exact (hset _ _ rfl rfl).elim
      · exact (hmoved rfl).elim
  | _ =>
      simp only [QInstr.exec] at hx
      repeat' split at hx
      all_goals first
        | cases hx; exact (hmoved rfl).elim
        | cases hx

omit [DecidableEq κ] in
/-- An owner that moves its tail over what it has staged adds to the unclaimed range. -/
theorem DequesInv.grows (h : DequesInv m.deque ops) {tail : UInt32} {room filled : Nat}
    (hown : (ops t).ownAt d = some (.staged tail room filled)) :
    (m.deque d).cursors.filledSlots + filled = ((unpack ((m.deque d).anchor +
      (UInt64.ofNat filled <<< 32))).1 - (unpack ((m.deque d).anchor +
      (UInt64.ofNat filled <<< 32))).2).toNat := by
  obtain ⟨r, hr, hm⟩ := h.ring d
  obtain ⟨hg, -⟩ := hm.hold_staged hown
  obtain ⟨hfits, hroom⟩ := hr.own_room t _ hg
  simp only [Hold.extent, Hold.Fits] at hroom hfits
  have hcap := hm.cap_lt
  have hsb := hr.stolen_le
  have hbt := hr.blocked_le
  rw [CursorData.filledSlots, WorkerQueue.cursors, hm.unpack_anchor, hm.anchor, pack_add_ofNat,
    unpack_pack, ← UInt32.ofNat_add]
  dsimp only
  rw [toNat_ofNat_sub hbt (by omega), toNat_ofNat_sub (by omega) (by omega)]
  omega

/-- Only a claim of all there is leaves nothing unclaimed. -/
theorem DequesInv.takesAll [DecidableEq τ] (h : DequesInv m.deque ops)
    (hi : (ops t).instr spurious = some i) (hx : i.exec t m = some (m', o))
    (hsome : (m.deque d).unclaimed ≠ []) (hnil : (m'.deque d).unclaimed = []) :
    (ops t).TakesAll spurious (m.deque d) d := by
  have hinv := h.tick hi hx
  have hmoved : (m'.deque d).anchor ≠ (m.deque d).anchor := fun heq =>
    hsome (h.tick_unclaimed hi hx heq ▸ hnil)
  have hends := (hinv.unclaimed_eq_nil d).mp hnil
  have hlen := h.unclaimed_length d
  have hpos := List.length_pos_iff.mpr hsome
  have hbound := (unpack (m.deque d).anchor).1.toNat_lt
  have hbound' := (unpack (m.deque d).anchor).2.toNat_lt
  rcases QInstr.exec_anchor hx hmoved with ⟨n, k, rfl, hanchor⟩ | ⟨next, ok, err, rfl, hanchor⟩
  · -- the owner adds elements, so some are left
    obtain ⟨tail, hown⟩ : ∃ tail, (ops t).ownAt d = some (.staged tail n n) := by
      cases hop : ops t <;> rw [hop] at hi <;> simp only [Op.instr] at hi
      case pushAdd => cases hi; exact ⟨_, if_pos rfl⟩
      case refillAdd => cases hi; exact ⟨_, if_pos rfl⟩
      case stealAdd => cases hi; exact ⟨_, if_pos rfl⟩
      all_goals first
        | cases hi
        | split at hi <;> cases hi
    have hgrown := h.grows hown
    rw [← hanchor, hends, UInt32.sub_self] at hgrown
    have hzero : (0 : UInt32).toNat = 0 := rfl
    omega
  · cases hop : ops t <;> rw [hop] at hi <;> simp only [Op.instr] at hi
    case popCas e c =>
      have htail := c.tail.toNat_lt
      have hblocked := c.blocked.toNat_lt
      split at hi
      · cases hi
      · rename_i hspurious
        simp only [Option.some.injEq, QInstr.anchorCas.injEq] at hi
        obtain ⟨rfl, hcur, rfl, -, -⟩ := hi
        have hall : (m.deque e).unclaimed.length = 1 := by
          rw [hlen, CursorData.filledSlots, WorkerQueue.cursors]
          simp only [hanchor, ← hcur, unpack_pack] at hends ⊢
          rw [← hends]
          simp only [UInt32.toNat_sub, UInt32.toNat_one]
          omega
        simp only [Op.TakesAll, Op.taking, if_neg hspurious, hcur, hall]
    case stealCas victim dst amount dc vc =>
      simp only [Option.some.injEq, QInstr.anchorCas.injEq] at hi
      obtain ⟨rfl, hcur, rfl, -, -⟩ := hi
      have hlocal := (h.localOk t)
      rw [hop] at hlocal
      have hall : (m.deque victim).unclaimed.length = amount := by
        have htail := vc.tail.toNat_lt
        have hblocked := vc.blocked.toNat_lt
        have hle := hlocal.2
        rw [hlen, CursorData.filledSlots, WorkerQueue.cursors]
        simp only [hanchor, ← hcur, unpack_pack] at hends ⊢
        simp only [CursorData.filledSlots, hends] at hle ⊢
        simp only [UInt32.toNat_sub, UInt32.toNat_add, UInt32.toNat_ofNat'] at hle ⊢
        omega
      simp only [Op.TakesAll, Op.taking, hcur, hall]
    all_goals first
      | cases hi
      | split at hi <;> cases hi

end Steps

/-! ## True verdicts -/

section Verdicts

variable [DecidableEq δ] [DecidableEq κ] [DecidableEq τ] [DecidableEq α]

/-- The step goes on with a call of the thread. -/
def QueueLabel.continues (t : τ) : QueueLabel δ κ τ α → Prop
  | .call u _ | .ret u _ => u ≠ t
  | .tick _ _ => True

/-- The verdict of a steal from {lit}`victim`, during which the run took the steps
{lit}`body`: empty if nothing was unclaimed at some instant of the call, busy if something
was at the instant its CAS failed. -/
def StealIsTrue
    (M : Machine (Machine.Shared τ (Queues δ κ τ α) (Op δ κ α)) (QueueLabel δ κ τ α))
    (s₀ : Machine.Shared τ (Queues δ κ τ α) (Op δ κ α)) (body : List (QueueLabel δ κ τ α)) (t : τ)
    (victim : δ) : Steal → Prop
  | .empty => ∃ first rest s, body = first ++ rest ∧ M.run s₀ first = some s ∧
      (s.mem.deque victim).unclaimed = []
  | .busy => ∃ first rest spurious s dst amount dc vc, body = first ++ .tick t spurious :: rest ∧
      M.run s₀ first = some s ∧ s.threads t = .stealCas victim dst amount dc vc ∧
      (s.mem.deque victim).anchor ≠ pack vc.tail vc.blocked ∧
      (s.mem.deque victim).unclaimed ≠ []
  | .success _ => True

/-- All verdicts of one kind are true. -/
def VerdictsTrue
    (M : Machine (Machine.Shared τ (Queues δ κ τ α) (Op δ κ α)) (QueueLabel δ κ τ α))
    (r : Steal) : Prop :=
  ∀ s s₁ s₂ s₃ body t victim dst max, M.Reachable s → 1 ≤ max →
    M.step s (.call t (.trySteal victim max dst)) = some s₁ → M.run s₁ body = some s₂ →
    (∀ l ∈ body, l.continues t) → M.step s₂ (.ret t (.stole r)) = some s₃ →
    StealIsTrue M s₁ body t victim r

theorem acceptsOne : ∀ _ : Nat, acceptsCapacity 1 :=
  fun _ => ⟨by decide, by decide, 0, rfl⟩

/-- Deques of one slot, one for each thread. -/
def smallDeques : Machine.Shared Nat (Queues Nat Unit Nat Nat) (Op Nat Unit Nat) where
  mem := ⟨fun d => .new 1 (acceptsOne d), fun _ => .fromQueue []⟩
  threads := fun _ => .idle

/-- Thread 1 pushes an element. -/
def onePush : List (QueueLabel Nat Unit Nat Nat) :=
  [.call 1 (.push 1 7)] ++ List.replicate 4 (.tick 1 false) ++ [.ret 1 .pushed]

/-- Threads 0 and 1 push, and thread 2 has claimed the element of thread 0. -/
def claimPending : List (QueueLabel Nat Unit Nat Nat) :=
  onePush ++ [.call 0 (.push 0 5)] ++ List.replicate 4 (.tick 0 false) ++ [.ret 0 .pushed] ++
    [.call 2 (.trySteal 0 1 2)] ++ List.replicate 5 (.tick 2 false)

/-- Thread 1 pops its element while thread 2 is about to claim it. -/
def popInBetween : List (QueueLabel Nat Unit Nat Nat) :=
  List.replicate 4 (.tick 2 false) ++ [.call 1 (.pop 1)] ++ List.replicate 4 (.tick 1 false) ++
    [.ret 1 (.popped (some 7)), .tick 2 false]

/-- Thread 2 is about to fail its CAS on deque 1, which has an element. -/
def failsBusy (s : Machine.Shared Nat (Queues Nat Unit Nat Nat) (Op Nat Unit Nat)) : Bool :=
  match s.threads 2 with
  | .stealCas 1 _ _ _ vc =>
      (s.mem.deque 1).anchor ≠ pack vc.tail vc.blocked && (s.mem.deque 1).unclaimed ≠ []
  | _ => false

/-- Thread 0, whose only slot is taken by a pending claim, finds deque 1 empty although it
holds an element; and thread 2 finds it busy although its element is gone. -/
theorem steal_verdicts_fail :
    ¬ VerdictsTrue (queueMachine (κ := Unit) (α := Nat) id (fun _ => 1) acceptsOne) .empty ∧
      ¬ VerdictsTrue (queueMachine (κ := Unit) (α := Nat) id (fun _ => 1) acceptsOne) .busy := by
  have hinit : (queueMachine id (fun _ => 1) acceptsOne).init smallDeques :=
    ⟨fun _ => ⟨0, rfl⟩, fun _ => ⟨[], rfl⟩, fun _ => rfl⟩
  let M := queueMachine (κ := Unit) (α := Nat) id (fun _ => 1) acceptsOne
  -- a call after some steps, refuted by a check of every instant of it
  have refute : ∀ (before body : List (QueueLabel Nat Unit Nat Nat)) (t victim dst : Nat)
      (r : Steal), (M.run smallDeques ((before ++ [.call t (.trySteal victim 1 dst)]) ++ body ++
        [.ret t (.stole r)])).isSome → (∀ l ∈ body, l.continues t) → VerdictsTrue M r →
      StealIsTrue M (M.after smallDeques (before ++ [.call t (.trySteal victim 1 dst)])) body t
        victim r := by
    intro before body t victim dst r hsome hcont h
    have hbody := Machine.run_isSome_of_append hsome
    have hcall := Machine.run_isSome_of_append hbody
    have hbefore := Machine.run_isSome_of_append hcall
    exact h _ _ _ _ body t victim dst 1
      (Machine.Reachable.run (.init hinit) (Machine.run_after hbefore)) (le_refl 1)
      (Machine.run_singleton.mp (Machine.run_after_append hcall)) (Machine.run_after_append hbody)
      hcont (Machine.run_singleton.mp (Machine.run_after_append hsome))
  constructor
  · intro h
    obtain ⟨first, rest, s, hsplit, hrun, hnil⟩ := refute claimPending
      (List.replicate 4 (.tick 0 false)) 0 1 0 .empty (by decide +kernel)
      (by intro l hl; rw [List.eq_of_mem_replicate hl]; trivial) h
    have hall : ∀ n < 5, ((M.run (M.after smallDeques
        (claimPending ++ [.call 0 (.trySteal 1 1 0)])) ((List.replicate 4 (.tick 0 false)).take
          n)).map fun s => (s.mem.deque 1).unclaimed) ≠ some [] := by
      decide +kernel
    have hlen : first.length < 5 := by
      have := congrArg List.length hsplit
      simp at this
      omega
    refine hall first.length hlen ?_
    rw [hsplit, List.take_left', hrun]
    · simp [hnil]
    · rfl
  · intro h
    obtain ⟨first, rest, spurious, s, e, amount, dc, vc, hsplit, hrun, hop, hcas, hsome⟩ :=
      refute onePush popInBetween 2 1 2 .busy (by decide +kernel)
        (by
          intro l hl
          simp only [popInBetween, List.replicate, List.cons_append, List.nil_append,
            List.mem_cons, List.not_mem_nil, or_false] at hl
          rcases hl with rfl | rfl | rfl | rfl | rfl | rfl | rfl | rfl | rfl | rfl | rfl <;>
            first | trivial | exact (by decide : (1 : Nat) ≠ 2)) h
    have hall : ∀ n < 11, ((M.run (M.after smallDeques (onePush ++ [.call 2 (.trySteal 1 1 2)]))
        (popInBetween.take n)).map failsBusy) ≠ some true := by
      decide +kernel
    have hlen : first.length < 11 := by
      have := congrArg List.length hsplit
      simp [popInBetween] at this
      omega
    refine hall first.length hlen ?_
    rw [hsplit, List.take_left', hrun]
    · simp [failsBusy, hop, hcas, hsome]
    · rfl

/-- The deque whose cursors a steal has loaded and found not empty. -/
def Op.sighted : Op δ κ α → Option δ
  | .cursorStolen d (.stealVictim _ _ _) tail blocked => if tail = blocked then none else some d
  | .stealCas victim _ _ _ _ => some victim
  | _ => none

/-- A steal looks at its destination while that has a free slot, or while the source has
nothing; and nobody takes the last element of a source that another steal has sighted. -/
structure StealsInPeace (s : Machine.Shared τ (Queues δ κ τ α) (Op δ κ α))
    (l : QueueLabel δ κ τ α) : Prop where
  room : ∀ t spurious dst victim max tail blocked, l = .tick t spurious →
    s.threads t = .cursorStolen dst (.stealDst victim max) tail blocked →
      0 < (s.mem.deque dst).cursors.emptySlots ∨ (s.mem.deque victim).unclaimed = []
  spared : ∀ t spurious d, l = .tick t spurious →
    (s.threads t).TakesAll spurious (s.mem.deque d) d → ∀ x, x ≠ t → (s.threads x).sighted ≠ some d

/-- The destination whose cursors a steal has begun to load, and the source it will look at. -/
def Op.looksFrom : Op δ κ α → Option (δ × δ)
  | .cursorStolen dst (.stealDst victim _) _ _ => some (dst, victim)
  | _ => none

omit [DecidableEq δ] [DecidableEq κ] [DecidableEq α] in
theorem Op.looksFrom_eq_some {o : Op δ κ α} {dst victim : δ} :
    o.looksFrom = some (dst, victim) ↔
      ∃ max tail blocked, o = .cursorStolen dst (.stealDst victim max) tail blocked := by
  constructor
  · intro h
    unfold Op.looksFrom at h
    split at h <;> cases h
    exact ⟨_, _, _, rfl⟩
  · rintro ⟨max, tail, blocked, rfl⟩
    rfl

instance (o : Op δ κ α) (spurious : Bool) (q : WorkerQueue α) (d : δ) :
    Decidable (o.TakesAll spurious q d) :=
  inferInstanceAs (Decidable (_ = _))

/-- With finitely many threads and deques it can be computed whether a step disturbs a steal. -/
instance [Fintype δ] [Fintype τ] (s : Machine.Shared τ (Queues δ κ τ α) (Op δ κ α))
    (l : QueueLabel δ κ τ α) : Decidable (StealsInPeace s l) :=
  match l with
  | .call _ _ | .ret _ _ => isTrue ⟨nofun, nofun⟩
  | .tick t spurious =>
      decidable_of_iff
        ((s.threads t).looksFrom.all (fun p => 0 < (s.mem.deque p.1).cursors.emptySlots ∨
            (s.mem.deque p.2).unclaimed = []) = true ∧
          ∀ d, (s.threads t).TakesAll spurious (s.mem.deque d) d →
            ∀ x, x ≠ t → (s.threads x).sighted ≠ some d)
        ⟨fun h =>
          ⟨fun _ _ dst victim max tail blocked hl hop => by
            cases hl
            simpa [hop, Op.looksFrom] using h.1,
          fun _ _ d hl => by cases hl; exact h.2 d⟩,
        fun h =>
          ⟨(Option.all_eq_true _ _).mpr fun p hlooks => by
            obtain ⟨max, tail, blocked, hop⟩ := Op.looksFrom_eq_some.mp hlooks
            simpa using h.room t spurious p.1 p.2 max tail blocked rfl hop,
          fun d => h.spared t spurious d rfl⟩⟩

/-! ## One call -/

/-- What a program point of a steal says: {lit}`wasEmpty` and {lit}`failedBusy` hold of the
call so far, and {lit}`list` is what is unclaimed of its victim now. -/
def Op.Tells (victim dst : δ) (max : Nat) (list : List α) (wasEmpty failedBusy : Prop) :
    Op δ κ α → Prop
  | .cursorAnchor d k =>
      match k with
      | .stealDst v n => d = dst ∧ v = victim ∧ n = max
      | .stealVictim _ n dc => d = victim ∧ n = max ∧ (0 < dc.emptySlots ∨ wasEmpty)
      | _ => False
  | .cursorStolen d k tail blocked =>
      match k with
      | .stealDst v n => d = dst ∧ v = victim ∧ n = max
      | .stealVictim _ n dc => d = victim ∧ n = max ∧ (0 < dc.emptySlots ∨ wasEmpty) ∧
          (tail = blocked → wasEmpty) ∧ (tail ≠ blocked → list ≠ [])
      | _ => False
  | .stealCas v _ _ _ _ => v = victim ∧ list ≠ []
  | .stealTake _ _ _ _ _ _ | .stealWrite _ _ _ _ _ _ _ | .publishLoad _ _ _ _ _
  | .publishCas _ _ _ _ _ | .stealAdd _ _ _ | .done (.stole (.success _)) => True
  | .done (.stole .empty) => wasEmpty
  | .done (.stole .busy) => failedBusy
  | _ => False

variable {owner : δ → τ} {capacity : δ → Nat} {hcap : ∀ d, acceptsCapacity (capacity d)}
  {s s' : Machine.Shared τ (Queues δ κ τ α) (Op δ κ α)} {l : QueueLabel δ κ τ α} {t : τ}
  {victim dst : δ} {max : Nat} {wasEmpty failedBusy wasEmpty' failedBusy' : Prop}

omit [DecidableEq δ] [DecidableEq κ] [DecidableEq τ] [DecidableEq α] in
/-- What a call says holds on while a source it has sighted has elements left. -/
theorem Op.Tells.mono {o : Op δ κ α} {list list' : List α}
    (h : o.Tells victim dst max list wasEmpty failedBusy)
    (hkeeps : o.sighted = some victim → list ≠ [] → list' ≠ []) (hempty : wasEmpty → wasEmpty')
    (hbusy : failedBusy → failedBusy') : o.Tells victim dst max list' wasEmpty' failedBusy' := by
  cases o with
  | cursorAnchor d k =>
      cases k with
      | stealVictim dst' n dc => exact ⟨h.1, h.2.1, h.2.2.imp_right hempty⟩
      | _ => exact h
  | cursorStolen d k tail blocked =>
      cases k with
      | stealVictim dst' n dc =>
          obtain ⟨rfl, hn, hroom, hnone, hsome⟩ := h
          exact ⟨rfl, hn, hroom.imp_right hempty, fun heq => hempty (hnone heq),
            fun hne => hkeeps (if_neg hne) (hsome hne)⟩
      | _ => exact h
  | stealCas v dst' amount dc vc =>
      obtain ⟨rfl, hsome⟩ := h
      exact ⟨rfl, hkeeps rfl hsome⟩
  | done r =>
      cases r with
      | stole r =>
          cases r with
          | empty => exact hempty h
          | busy => exact hbusy h
          | success n => trivial
      | _ => exact h
  | _ => exact h

omit [DecidableEq δ] [DecidableEq κ] [DecidableEq τ] [DecidableEq α] in
/-- The copying loop says nothing. -/
theorem Op.Tells.stealLoop {d e : δ} {amount offset : Nat} {dc : CursorData} {start : UInt32}
    {list : List α} :
    (Op.stealLoop d e amount offset dc start : Op δ κ α).Tells victim dst max list wasEmpty
      failedBusy := by
  unfold Op.stealLoop
  split <;> trivial

omit [DecidableEq κ] [DecidableEq α] [DecidableEq τ] in
/-- An owner that has loaded its tail counts the free slots of this instant. -/
theorem DequesInv.emptySlots_eq {k : Next δ κ α} {tail blocked : UInt32} {d : δ}
    (hinv : DequesInv s.mem.deque s.threads) (hop : s.threads t = .cursorStolen d k tail blocked)
    (hown : k.ownAt d d (some tail) = some (.staged tail 0 0)) :
    (CursorData.mk (s.mem.deque d).stolen blocked tail ((s.mem.deque d).buffer.mask + 1)
      (s.mem.deque d).buffer.mask).emptySlots = (s.mem.deque d).cursors.emptySlots := by
  obtain ⟨r, -, hm⟩ := hinv.ring d
  obtain ⟨-, htail⟩ := hm.hold_staged (x := t) (by rw [hop]; exact hown)
  simp only [CursorData.emptySlots, WorkerQueue.cursors, hm.unpack_anchor, htail]

omit [DecidableEq α] [DecidableEq τ] in
/-- A step of the call itself. -/
theorem Op.Tells.self {spurious : Bool} {i : QInstr δ κ α (Op δ κ α)} {m : Queues δ κ τ α}
    {o : Op δ κ α} (h : (s.threads t).Tells victim dst max (s.mem.deque victim).unclaimed wasEmpty
      failedBusy) (hinv : DequesInv s.mem.deque s.threads) (hok : StealsInPeace s (.tick t spurious))
    (hmax : 1 ≤ max) (hi : (s.threads t).instr spurious = some i) (hx : i.exec t s.mem = some (m, o))
    (hempty : wasEmpty ∨ (s.mem.deque victim).unclaimed = [] → wasEmpty')
    (hbusy : failedBusy ∨ (∃ dst amount dc vc, s.threads t = .stealCas victim dst amount dc vc ∧
      (s.mem.deque victim).anchor ≠ pack vc.tail vc.blocked ∧ (s.mem.deque victim).unclaimed ≠ []) →
      failedBusy') :
    o.Tells victim dst max (m.deque victim).unclaimed wasEmpty' failedBusy' := by
  cases hop : s.threads t <;> rw [hop] at h hi <;> simp only [Op.instr] at hi
  case cursorAnchor d k =>
    cases hi
    cases hx
    cases k with
    | stealDst v n => exact h
    | stealVictim dst' n dc =>
        obtain ⟨rfl, hn, hroom⟩ := h
        refine ⟨rfl, hn, hroom.imp_right fun hw => hempty (.inl hw), fun heq => ?_, fun hne hnil => ?_⟩
        · exact hempty (.inr ((hinv.unclaimed_eq_nil d).mpr heq))
        · exact hne ((hinv.unclaimed_eq_nil d).mp hnil)
    | _ => exact h.elim
  case cursorStolen d k tail blocked =>
    cases hi
    cases hx
    cases k with
    | stealDst v n =>
        obtain ⟨rfl, rfl, rfl⟩ := h
        refine ⟨rfl, rfl, ?_⟩
        rw [hinv.emptySlots_eq hop (if_pos rfl)]
        exact (hok.room t spurious d v n tail blocked rfl hop).imp_right fun hnil => hempty (.inr hnil)
    | stealVictim dst' n dc =>
        obtain ⟨rfl, rfl, hroom, hnone, hsome⟩ := h
        have hfilled : tail ≠ blocked → 1 ≤ (tail - blocked).toNat := by
          intro hne
          have ht := tail.toNat_lt
          have hb := blocked.toNat_lt
          have hdiff : tail.toNat ≠ blocked.toNat := fun heq => hne (UInt32.toNat_inj.mp heq)
          simp only [UInt32.toNat_sub]
          omega
        simp only [Op.afterCursorData]
        split
        · -- nothing to take: the source was empty, for the destination has room
          rename_i hzero
          simp only [CursorData.filledSlots] at hzero
          refine hempty (.inl ?_)
          by_cases heq : tail = blocked
          · exact hnone heq
          · have := hfilled heq
            exact hroom.resolve_left (by omega)
        · rename_i hamount
          refine ⟨rfl, hsome fun heq => hamount ?_⟩
          simp [CursorData.filledSlots, heq]
    | _ => exact h.elim
  case stealCas v dst' amount dc vc =>
    cases hi
    obtain ⟨rfl, hsome⟩ := h
    simp only [QInstr.exec] at hx
    split at hx <;> cases hx
    · exact .stealLoop
    · rename_i hcas
      exact hbusy (.inr ⟨dst', amount, dc, vc, hop, hcas, hsome⟩)
  case stealTake v dst' amount offset dc start =>
    cases hi
    simp only [QInstr.exec] at hx
    split at hx <;> cases hx
    trivial
  case stealWrite v dst' amount offset dc start val =>
    cases hi
    cases hx
    exact .stealLoop
  case publishLoad v dst' amount dc start =>
    cases hi
    cases hx
    dsimp only
    split <;> trivial
  case publishCas v dst' amount dc start =>
    split at hi <;> cases hi
    · cases hx
      trivial
    · simp only [QInstr.exec] at hx
      split at hx <;> cases hx <;> trivial
  case stealAdd dst' amount dc =>
    cases hi
    cases hx
    trivial
  case done r => cases hi
  all_goals exact h.elim

omit [DecidableEq δ] [DecidableEq κ] [DecidableEq τ] [DecidableEq α] in
/-- A verdict that is true stays true while the call goes on. -/
theorem StealIsTrue.mono
    {M : Machine (Machine.Shared τ (Queues δ κ τ α) (Op δ κ α)) (QueueLabel δ κ τ α)}
    {body : List (QueueLabel δ κ τ α)} {r : Steal} (h : StealIsTrue M s body t victim r) :
    StealIsTrue M s (body ++ [l]) t victim r := by
  cases r with
  | empty =>
      obtain ⟨first, rest, s₁, rfl, hrun, hnil⟩ := h
      exact ⟨first, rest ++ [l], s₁, by simp, hrun, hnil⟩
  | busy =>
      obtain ⟨first, rest, spurious, s₁, e, amount, dc, vc, rfl, hrest⟩ := h
      exact ⟨first, rest ++ [l], spurious, s₁, e, amount, dc, vc, by simp, hrest⟩
  | success n => trivial

/-- One more step of a run during the call. -/
theorem Op.Tells.step {s₁ : Machine.Shared τ (Queues δ κ τ α) (Op δ κ α)}
    {first : List (QueueLabel δ κ τ α)}
    (h : (s.threads t).Tells victim dst max (s.mem.deque victim).unclaimed
      (StealIsTrue (queueMachine owner capacity hcap) s₁ first t victim .empty)
      (StealIsTrue (queueMachine owner capacity hcap) s₁ first t victim .busy))
    (hinv : DequesInv s.mem.deque s.threads) (hmax : 1 ≤ max)
    (hrun : (queueMachine owner capacity hcap).run s₁ first = some s) (hok : StealsInPeace s l)
    (hcont : l.continues t) (hstep : (queueMachine owner capacity hcap).step s l = some s') :
    (s'.threads t).Tells victim dst max (s'.mem.deque victim).unclaimed
      (StealIsTrue (queueMachine owner capacity hcap) s₁ (first ++ [l]) t victim .empty)
      (StealIsTrue (queueMachine owner capacity hcap) s₁ (first ++ [l]) t victim .busy) := by
  have hother : s'.threads t = s.threads t →
      ((s.threads t).sighted = some victim → (s.mem.deque victim).unclaimed ≠ [] →
        (s'.mem.deque victim).unclaimed ≠ []) →
      (s'.threads t).Tells victim dst max (s'.mem.deque victim).unclaimed
        (StealIsTrue (queueMachine owner capacity hcap) s₁ (first ++ [l]) t victim .empty)
        (StealIsTrue (queueMachine owner capacity hcap) s₁ (first ++ [l]) t victim .busy) := by
    intro hsame hkeeps
    rw [hsame]
    exact h.mono hkeeps (·.mono) (·.mono)
  cases l with
  | call u c =>
      simp only [queueMachine] at hstep
      split at hstep <;> cases hstep
      exact hother (Function.update_of_ne (Ne.symm hcont) ..) fun _ => id
  | ret u r =>
      simp only [queueMachine] at hstep
      split at hstep
      · split at hstep <;> cases hstep
        exact hother (Function.update_of_ne (Ne.symm hcont) ..) fun _ => id
      · cases hstep
  | tick u spurious =>
      simp only [queueMachine] at hstep
      split at hstep
      · rename_i i hi
        split at hstep <;> cases hstep
        rename_i m o hx
        by_cases hu : u = t
        · subst hu
          simp only [Function.update_self]
          refine h.self hinv hok hmax hi hx ?_ ?_
          · rintro (hempty | hnil)
            · exact hempty.mono
            · exact ⟨first, _, s, rfl, hrun, hnil⟩
          · rintro (hbusy | ⟨e, amount, dc, vc, hfails⟩)
            · exact hbusy.mono
            · exact ⟨first, [], spurious, s, e, amount, dc, vc, rfl, hrun, hfails⟩
        · refine hother (Function.update_of_ne (Ne.symm hu) ..) fun hsighted hsome hnil => ?_
          exact hok.spared u spurious victim rfl (hinv.takesAll hi hx hsome hnil) t (Ne.symm hu)
            hsighted
      · cases hstep

/-- For every victim, destination and maximum and every interleaving: while steals find
room and are spared, an empty verdict is true of some instant of the call, and a busy
verdict of the instant of the failed CAS. -/
theorem steal_verdicts (owner : δ → τ) (capacity : δ → Nat)
    (hcap : ∀ d, acceptsCapacity (capacity d))
    {s s₁ s₂ s₃ : Machine.Shared τ (Queues δ κ τ α) (Op δ κ α)} {body : List (QueueLabel δ κ τ α)}
    {t : τ} {victim dst : δ} {max : Nat} {r : Steal}
    (hs : (queueMachine owner capacity hcap).Reachable s) (hmax : 1 ≤ max)
    (hcall : (queueMachine owner capacity hcap).step s (.call t (.trySteal victim max dst)) = some s₁)
    (hrun : (queueMachine owner capacity hcap).run s₁ body = some s₂)
    (hcont : ∀ l ∈ body, l.continues t)
    (hret : (queueMachine owner capacity hcap).step s₂ (.ret t (.stole r)) = some s₃)
    (hok : (queueMachine owner capacity hcap).Admits StealsInPeace s₁ body) :
    StealIsTrue (queueMachine owner capacity hcap) s₁ body t victim r := by
  have hreach : (queueMachine owner capacity hcap).Reachable s₁ := .step hs trivial hcall
  have htells := Machine.run_history (M := queueMachine owner capacity hcap)
    (I := fun first s => (∀ l ∈ first, l.continues t) →
      (queueMachine owner capacity hcap).Admits StealsInPeace s₁ first →
        (s.threads t).Tells victim dst max (s.mem.deque victim).unclaimed
          (StealIsTrue (queueMachine owner capacity hcap) s₁ first t victim .empty)
          (StealIsTrue (queueMachine owner capacity hcap) s₁ first t victim .busy))
    ?_ ?_ hrun hcont hok
  · simp only [queueMachine] at hret
    split at hret
    · rename_i res hdone
      split at hret <;> cases hret
      rename_i hres
      rw [hdone, hres] at htells
      cases r with
      | success n => trivial
      | _ => exact htells
    · cases hret
  · intro _ _
    simp only [queueMachine] at hcall
    split at hcall <;> cases hcall
    simp [Op.start, Op.Tells]
  · intro first s l s' hrun₁ hI hstep hcont hok
    refine (hI (fun l hl => hcont l (List.mem_append_left _ hl)) hok.of_append).step
      (queueMachine_dequesInv (hreach.run hrun₁)).1 hmax hrun₁ (hok.after hrun₁).1
      (hcont l (by simp)) hstep

/-- One thread pushes two elements. -/
def twoPushes : List (QueueLabel Bool Unit Bool Nat) :=
  QueueLabel.wholeCall true (.push true 7) 4 .pushed ++
    QueueLabel.wholeCall true (.push true 8) 4 .pushed

/-- The owner pops between the loads of a steal by the other thread and its CAS. -/
def popBeforeCas : List (QueueLabel Bool Unit Bool Nat) :=
  QueueLabel.ticks false 4 ++ QueueLabel.wholeCall true (.pop true) 4 (.popped (some 8)) ++
    QueueLabel.ticks false 1

/-- The steal says busy, and one element is left when its CAS fails. -/
theorem busy_verdict_after_a_pop :
    StealIsTrue (queueMachine (κ := Unit) (α := Nat) id (fun _ => 2) acceptsTwo)
      ((queueMachine id (fun _ => 2) acceptsTwo).after twoDeques
        (twoPushes ++ [.call false (.trySteal true 1 false)])) popBeforeCas false true .busy := by
  have hret : ((queueMachine id (fun _ => 2) acceptsTwo).run twoDeques
      (twoPushes ++ [.call false (.trySteal true 1 false)] ++ popBeforeCas ++
        [.ret false (.stole .busy)])).isSome := by
    decide +kernel
  have hbody := Machine.run_isSome_of_append hret
  have hcall := Machine.run_isSome_of_append hbody
  have hpushes := Machine.run_isSome_of_append hcall
  have hcont : ∀ l ∈ popBeforeCas, l.continues false := by
    simp [popBeforeCas, QueueLabel.wholeCall, QueueLabel.ticks, QueueLabel.continues]
  have hpeace : (queueMachine id (fun _ => 2) acceptsTwo).Admits StealsInPeace
      ((queueMachine id (fun _ => 2) acceptsTwo).after twoDeques
        (twoPushes ++ [.call false (.trySteal true 1 false)])) popBeforeCas := by
    decide +kernel
  exact steal_verdicts id (fun _ => 2) acceptsTwo
    (Machine.Reachable.run (.init twoDeques_init) (Machine.run_after hpushes)) (le_refl 1)
    (Machine.run_singleton.mp (Machine.run_after_append hcall)) (Machine.run_after_append hbody)
    hcont (Machine.run_singleton.mp (Machine.run_after_append hret)) hpeace

end Verdicts

end XynokConcurrency
