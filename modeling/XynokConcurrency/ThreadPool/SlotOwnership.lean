import XynokConcurrency.ThreadPool.WorkerQueueInv

/-!
# Slot ownership over whole runs

The invariant of {lit}`WorkerQueueInv` carried over every run of the machine of
the shared queues, and read back in the words of the code: wrapping cursor
distances, claims that tile the stolen range, live slots, and slot accesses that
never meet.

Main results:

- Definition {lit}`SlotOwnership`: the ownership protocol of one deque.
- Theorem {lit}`queueMachine_dequesInv`: every reachable state keeps its deques
  in order.
- Theorem {lit}`worker_queue_slot_ownership`: every deque of every reachable
  state follows the ownership protocol.
-/

namespace XynokConcurrency

open ClaimRing

variable {δ κ τ α : Type}

/-! ## The slots a step touches -/

/-- Slot an access reads out. -/
def QInstr.slotRead {β : Type} : QInstr δ κ α β → Option (δ × UInt32)
  | .slotTake d cursor _ => some (d, cursor)
  | _ => none

/-- Slot an access writes. -/
def QInstr.slotWritten {β : Type} : QInstr δ κ α β → Option (δ × UInt32)
  | .slotWrite d cursor _ _ => some (d, cursor)
  | _ => none

/-- The next step of an operation reads out the slot of a cursor. -/
def Op.Reads (o : Op δ κ α) (d : δ) (cursor : UInt32) : Prop :=
  ∃ spurious i, o.instr spurious = some i ∧ i.slotRead = some (d, cursor)

/-- The next step of an operation writes the slot of a cursor. -/
def Op.Writes (o : Op δ κ α) (d : δ) (cursor : UInt32) : Prop :=
  ∃ spurious i, o.instr spurious = some i ∧ i.slotWritten = some (d, cursor)

/-- Deque whose owner side an operation is on. -/
def Op.ownerSide : Op δ κ α → Option δ
  | .cursorAnchor d k | .cursorStolen d k _ _ =>
      match k with
      | .stealVictim dst _ _ => some dst
      | .len => none
      | _ => some d
  | .pushWrite d _ _ | .pushAdd d _ | .popCas d _ | .popTake d _ | .refillLen d _ _ _
  | .drainIsEmpty d _ _ _ | .drainLock d _ _ _ | .drainAmount d _ _ _ | .drainFront d _ _ _ _
  | .drainWrite d _ _ _ _ _ | .drainStoreLen d _ _ _ | .drainUnlock d _ _ _
  | .refillAdd d _ _ | .stealCas _ d _ _ _ | .stealTake _ d _ _ _ _
  | .stealWrite _ d _ _ _ _ _ | .publishLoad _ d _ _ _ | .publishCas _ d _ _ _
  | .stealAdd d _ _ => some d
  | _ => none

variable [DecidableEq δ]

/-- An operation shows owner-side state exactly of the deque it is on. -/
theorem Op.ownAt_isSome_iff (o : Op δ κ α) (d : δ) :
    (o.ownAt d).isSome ↔ o.ownerSide = some d := by
  have hif : ∀ (e : δ) (v : OwnView),
      (if e = d then some v else none).isSome ↔ some e = some d := by
    intro e v
    by_cases h : e = d <;> simp [h]
  cases o with
  | cursorAnchor e k => cases k <;> first | exact hif _ _ | simp [Op.ownAt, Next.ownAt, Op.ownerSide]
  | cursorStolen e k tail blocked =>
      cases k <;> first | exact hif _ _ | simp [Op.ownAt, Next.ownAt, Op.ownerSide]
  | _ => first | exact hif _ _ | simp [Op.ownAt, Op.ownerSide]

/-- A step never moves an operation to the owner side of another deque. -/
theorem Op.ownerSide_tick [DecidableEq κ] {o o' : Op δ κ α} {spurious : Bool}
    {i : QInstr δ κ α (Op δ κ α)} {t : τ} {m m' : Queues δ κ τ α}
    (hi : o.instr spurious = some i) (hx : i.exec t m = some (m', o')) :
    o'.ownerSide = none ∨ o'.ownerSide = o.ownerSide := by
  cases o with
  | idle => cases hi
  | done r => cases hi
  | cursorAnchor d k =>
      cases hi
      cases hx
      cases k <;> exact .inr rfl
  | cursorStolen d k tail blocked =>
      cases hi
      cases hx
      cases k <;> simp only [Op.afterCursorData, Op.popLoop] <;> (try split) <;>
        simp [Op.ownerSide]
  | popCas d c =>
      simp only [Op.instr] at hi
      split at hi <;> cases hi
      · cases hx
        simp only [Op.popLoop]
        split <;> simp [Op.ownerSide]
      · simp only [QInstr.exec] at hx
        split at hx <;> cases hx
        · simp [Op.ownerSide]
        · simp only [Op.popLoop]
          split <;> simp [Op.ownerSide]
  | publishCas victim dst amount dc start =>
      simp only [Op.instr] at hi
      split at hi <;> cases hi
      · cases hx
        exact .inr rfl
      · simp only [QInstr.exec] at hx
        split at hx <;> cases hx <;> exact .inr rfl
  | stealCas victim dst amount dc vc =>
      cases hi
      simp only [QInstr.exec] at hx
      split at hx <;> cases hx
      · simp only [Op.stealLoop]
        split <;> simp [Op.ownerSide]
      · exact .inl rfl
  | refillLen d max src c =>
      cases hi
      cases hx
      dsimp only
      split <;> simp [Op.ownerSide]
  | drainIsEmpty d src take c =>
      cases hi
      cases hx
      dsimp only
      split <;> simp [Op.ownerSide]
  | drainAmount d src take c =>
      cases hi
      cases hx
      simp only [Op.drainLoop]
      split <;> simp [Op.ownerSide]
  | drainWrite d src moved offset c val =>
      cases hi
      cases hx
      simp only [Op.drainLoop]
      split <;> simp [Op.ownerSide]
  | drainUnlock d src moved c =>
      cases hi
      cases hx
      split <;> simp [Op.ownerSide]
  | stealWrite victim dst amount offset dc start val =>
      cases hi
      cases hx
      simp only [Op.stealLoop]
      split <;> simp [Op.ownerSide]
  | publishLoad victim dst amount dc start =>
      cases hi
      cases hx
      dsimp only
      split <;> simp [Op.ownerSide]
  | queuePopIsEmpty q =>
      cases hi
      cases hx
      dsimp only
      split <;> exact .inl rfl
  | _ =>
      cases hi
      simp only [QInstr.exec] at hx
      first
        | (cases hx; simp [Op.ownerSide])
        | (split at hx <;> cases hx <;> simp [Op.ownerSide])

/-- Only the two copying ends read a slot out. -/
theorem Op.Reads.cases {o : Op δ κ α} {d : δ} {cursor : UInt32} (h : o.Reads d cursor) :
    o.ownAt d = some (.popped cursor) ∨
      ∃ dst amount offset dc start, o = .stealTake d dst amount offset dc start ∧
        cursor = start + UInt32.ofNat offset := by
  obtain ⟨spurious, i, hi, hread⟩ := h
  cases o with
  | popTake e c =>
      cases hi
      cases hread
      exact .inl (if_pos rfl)
  | stealTake victim dst amount offset dc start =>
      cases hi
      cases hread
      exact .inr ⟨dst, amount, offset, dc, start, rfl, rfl⟩
  | popCas e c =>
      simp only [Op.instr] at hi
      split at hi <;> cases hi <;> cases hread
  | publishCas victim dst amount dc start =>
      simp only [Op.instr] at hi
      split at hi <;> cases hi <;> cases hread
  | _ => cases hi <;> cases hread

/-- Every write goes to the next reserved slot of the owner's own deque. -/
theorem Op.Writes.cases {o : Op δ κ α} {d : δ} {cursor : UInt32} (h : o.Writes d cursor)
    (hlocal : o.LocalOk) :
    ∃ tail room filled, o.ownAt d = some (.staged tail room filled) ∧ filled < room ∧
      cursor = tail + UInt32.ofNat filled := by
  obtain ⟨spurious, i, hi, hwrite⟩ := h
  cases o with
  | pushWrite e val c =>
      cases hi
      cases hwrite
      exact ⟨c.tail, 1, 0, if_pos rfl, Nat.one_pos, by simp⟩
  | drainWrite e src moved offset c val =>
      cases hi
      cases hwrite
      exact ⟨c.tail, moved, offset, if_pos rfl, hlocal, rfl⟩
  | stealWrite victim dst amount offset dc start val =>
      cases hi
      cases hwrite
      exact ⟨dc.tail, amount, offset, if_pos rfl, hlocal, rfl⟩
  | popCas e c =>
      simp only [Op.instr] at hi
      split at hi <;> cases hi <;> cases hwrite
  | publishCas victim dst amount dc start =>
      simp only [Op.instr] at hi
      split at hi <;> cases hi <;> cases hwrite
  | _ => cases hi <;> cases hwrite

/-! ## The ownership protocol in the words of the code -/

/-- The ownership protocol of one deque: every distance is the wrapping one the
code computes. -/
structure SlotOwnership (q : WorkerQueue α) (d : δ) (ops : τ → Op δ κ α) : Prop where
  blocked_le : ((unpack q.anchor).2 - q.stolen).toNat ≤ ((unpack q.anchor).1 - q.stolen).toNat
  tail_le : ((unpack q.anchor).1 - q.stolen).toNat ≤ q.buffer.capacity
  /-- A claim that was won and not yet published is a piece of the stolen range. -/
  claim_range : ∀ x v, (ops x).claimAt d = some v →
    0 < v.amount ∧
      (v.start - q.stolen).toNat + v.amount ≤ ((unpack q.anchor).2 - q.stolen).toNat
  /-- Every position of the stolen range lies in exactly one claim. -/
  claim_tile : ∀ k, k < ((unpack q.anchor).2 - q.stolen).toNat →
    ∃! x, ∃ v, (ops x).claimAt d = some v ∧ (v.start - q.stolen).toNat ≤ k ∧
      k < (v.start - q.stolen).toNat + v.amount
  live : ∀ k, k < ((unpack q.anchor).1 - (unpack q.anchor).2).toNat →
    (q.buffer.cellAt ((unpack q.anchor).2 + UInt32.ofNat k)).isSome
  /-- A step that writes a slot stays behind the tail, finds the slot empty, and
  meets no claim of another thread. -/
  write : ∀ x cursor, (ops x).Writes d cursor →
    ((unpack q.anchor).1 - q.stolen).toNat ≤ (cursor - q.stolen).toNat ∧
      (cursor - q.stolen).toNat < q.buffer.capacity ∧
      q.buffer.cellAt cursor = none ∧
      ∀ y v k, y ≠ x → (ops y).claimAt d = some v → k < v.amount →
        q.buffer.maskSlot (v.start + UInt32.ofNat k) ≠ q.buffer.maskSlot cursor
  /-- A step that reads a slot out finds an element there. -/
  read : ∀ x cursor, (ops x).Reads d cursor → (q.buffer.cellAt cursor).isSome

/-- A wrapping distance from the stolen cursor, on a modelled deque. -/
theorem Models.distance {q : WorkerQueue α} {claims : τ → Option ClaimView}
    {owns : τ → Option OwnView} {r : Ring τ α} (h : Models q claims owns r) {i : Nat}
    (hi : r.stolen ≤ i) (hi' : i ≤ r.stolen + r.cap) :
    (UInt32.ofNat i - q.stolen).toNat = i - r.stolen := by
  have hcap := h.cap_lt
  rw [h.stolen]
  exact toNat_ofNat_sub hi (by omega)

/-- Deques in order follow the ownership protocol. -/
theorem DequesInv.slotOwnership {deque : δ → WorkerQueue α} {ops : τ → Op δ κ α}
    (h : DequesInv deque ops) (d : δ) : SlotOwnership (deque d) d ops := by
  obtain ⟨r, hr, hm⟩ := h.ring d
  have hsb := hr.stolen_le
  have hbt := hr.blocked_le
  have htl := hr.tail_le
  have hcap := hm.cap_lt
  have hblocked : ((unpack (deque d).anchor).2 - (deque d).stolen).toNat =
      r.blocked - r.stolen := by
    rw [hm.unpack_anchor]
    exact hm.distance hsb (by omega)
  have htail : ((unpack (deque d).anchor).1 - (deque d).stolen).toNat = r.tail - r.stolen := by
    rw [hm.unpack_anchor]
    exact hm.distance (by omega) htl
  have hstart : ∀ x v, (ops x).claimAt d = some v → ∃ c, r.claim x = some c ∧
      v.start = UInt32.ofNat c.start ∧ v.amount = c.len ∧
      (v.start - (deque d).stolen).toNat = c.start - r.stolen := by
    intro x v hv
    obtain ⟨c, hc, hs, hlen, -⟩ := hm.exists_claim (x := x) hv
    have hrange := hr.claim_range x c hc
    refine ⟨c, hc, hs, hlen, ?_⟩
    rw [hs]
    exact hm.distance hrange.1 (by omega)
  refine ⟨?_, ?_, ?_, ?_, ?_, ?_, ?_⟩
  · omega
  · rw [hm.cap]
    omega
  · intro x v hv
    obtain ⟨c, hc, -, hlen, hdist⟩ := hstart x v hv
    have hrange := hr.claim_range x c hc
    omega
  · intro k hk
    obtain ⟨x, c, hc, hle, hlt⟩ := hr.claim_cover (r.stolen + k) (by omega) (by omega)
    have hview : (ops x).claimAt d = some (.ofClaim c) := by
      have := hm.claim x
      rwa [hc] at this
    refine ⟨x, ⟨.ofClaim c, hview, ?_⟩, ?_⟩
    · obtain ⟨c', hc', -, hlen, hdist⟩ := hstart x _ hview
      have hrange := hr.claim_range x c' hc'
      obtain rfl : c = c' := by simpa [hc] using hc'
      omega
    · rintro y ⟨v, hv, hle', hlt'⟩
      obtain ⟨c', hc', -, hlen, hdist⟩ := hstart y v hv
      have hrange := hr.claim_range y c' hc'
      by_contra hne
      rcases hr.claim_disjoint y x c' c hne hc' hc with hdisj | hdisj <;> omega
  · intro k hk
    rw [hm.unpack_anchor] at hk ⊢
    simp only at hk ⊢
    rw [toNat_ofNat_sub hbt (by omega)] at hk
    rw [← UInt32.ofNat_add, hm.cellAt_ofNat]
    exact hr.live _ (by omega) (by omega)
  · intro x cursor hw
    obtain ⟨tail, room, filled, hown, hlt, rfl⟩ := hw.cases (h.localOk x)
    obtain ⟨hg, rfl⟩ := hm.hold_staged hown
    obtain ⟨-, hroom⟩ := hr.own_room x _ hg
    simp only [Hold.extent] at hroom
    rw [← UInt32.ofNat_add, hm.distance (by omega) (by omega), hm.cellAt_ofNat, hm.cap]
    refine ⟨by omega, by omega, ?_, ?_⟩
    · refine hr.free _ (by omega) (by omega) ?_
      intro y g hy hcov
      obtain rfl : y = x := hr.own_unique y x (by simp [hy]) (by simp [hg])
      rw [hg] at hy
      cases hy
      simp only [Hold.covers] at hcov
      omega
    · intro y v k _ hv hk
      obtain ⟨c, hc, hs, hlen, -⟩ := hstart y v hv
      have hrange := hr.claim_range y c hc
      rw [hs, ← UInt32.ofNat_add, FixedRingBuffer.maskSlot_ofNat,
        FixedRingBuffer.maskSlot_ofNat, hm.cap]
      intro hsame
      have := window_mod_inj (s := r.stolen) (by omega) (by omega) (by omega) (by omega) hsame
      omega
  · intro x cursor hread
    rcases hread.cases with hown | ⟨dst, amount, offset, dc, start, hop, rfl⟩
    · obtain ⟨hg, rfl⟩ := hm.hold_popped hown
      rw [hm.cellAt_ofNat]
      simpa using hr.own_live x _ 0 hg rfl
    · have hlt : offset < amount := by
        have := h.localOk x
        rwa [hop] at this
      obtain ⟨c, hc, hs, hlen, htaken⟩ := hm.exists_claim (x := x)
        (c := ⟨start, amount, offset⟩) (by simp [hop, Op.claimAt])
      simp only at hs hlen htaken
      rw [hs, ← UInt32.ofNat_add, hm.cellAt_ofNat]
      exact hr.claim_live x c _ hc (by omega) (by omega)

/-! ## Runs of the machine -/

variable [DecidableEq κ] [DecidableEq τ] [DecidableEq α]

/-- Every reachable state keeps its deques in order, and only the owner of a
deque is on its owner side. -/
theorem queueMachine_dequesInv {owner : δ → τ} {capacity : δ → Nat}
    {hcap : ∀ d, acceptsCapacity (capacity d)}
    {s : Machine.Shared τ (Queues δ κ τ α) (Op δ κ α)}
    (hs : (queueMachine owner capacity hcap).Reachable s) :
    DequesInv s.mem.deque s.threads ∧
      (∀ d, (s.mem.deque d).buffer.capacity = capacity d) ∧
      ∀ x d, (s.threads x).ownerSide = some d → owner d = x := by
  refine Machine.Reachable.invariant
    (I := fun s => DequesInv s.mem.deque s.threads ∧
      (∀ d, (s.mem.deque d).buffer.capacity = capacity d) ∧
      ∀ x d, (s.threads x).ownerSide = some d → owner d = x) ?_ ?_ hs
  · rintro s ⟨hdeque, -, hidle⟩
    refine ⟨.initial hidle fun d => ?_, fun d => ?_, fun x d hd => ?_⟩
    · obtain ⟨cursor, hd⟩ := hdeque d
      exact ⟨cursor, capacity d, hcap d, hd⟩
    · obtain ⟨cursor, hd⟩ := hdeque d
      rw [hd]
      exact FixedRingBuffer.capacity_new (hcap d)
    · rw [hidle x] at hd
      cases hd
  · rintro s l s' - ⟨hinv, hcapacity, howner⟩ hstep
    cases l with
    | call t c =>
        simp only [queueMachine] at hstep
        split at hstep
        · rename_i hallowed
          cases hstep
          have hidle : s.threads t = .idle := by
            unfold callAllowed at hallowed
            split at hallowed <;> simp_all
          have hmine : ∀ d, c.ownerSide = some d → owner d = t := by
            intro d hd
            simpa [callAllowed, hidle, hd] using hallowed
          refine ⟨hinv.call hidle c fun d hd y hy => ?_, hcapacity, fun x d hd => ?_⟩
          · by_contra hne
            have hsome : (Op.ownAt d (s.threads y)).isSome := Option.isSome_iff_ne_none.mpr hne
            exact hy ((howner y d ((Op.ownAt_isSome_iff _ _).mp hsome)).symm.trans (hmine d hd))
          · by_cases hx : x = t
            · subst hx
              simp only [Function.update_self] at hd
              apply hmine
              cases c <;> simp_all [Op.start, Op.ownerSide, QueueCall.ownerSide]
            · exact howner x d (by simpa [hx] using hd)
        · cases hstep
    | tick t spurious =>
        simp only [queueMachine] at hstep
        split at hstep
        · rename_i i hi
          split at hstep
          · rename_i m o hx
            cases hstep
            refine ⟨hinv.tick hi hx, fun d => ?_, fun x d hd => ?_⟩
            · rw [← hcapacity d]
              exact congrArg (· + 1) (congrArg UInt32.toNat (QInstr.exec_mask hx d))
            · by_cases hxt : x = t
              · subst hxt
                simp only [Function.update_self] at hd
                rcases Op.ownerSide_tick hi hx with hnone | hsame
                · rw [hnone] at hd
                  cases hd
                · exact howner x d (hsame ▸ hd)
              · exact howner x d (by simpa [hxt] using hd)
          · cases hstep
        · cases hstep
    | ret t r =>
        simp only [queueMachine] at hstep
        split at hstep
        · rename_i r' hop
          split at hstep
          · cases hstep
            refine ⟨hinv.ret hop, hcapacity, fun x d hd => ?_⟩
            by_cases hx : x = t
            · subst hx
              simp [Op.ownerSide] at hd
            · exact howner x d (by simpa [hx] using hd)
          · cases hstep
        · cases hstep

/-- Every deque of every reachable state follows the ownership protocol, and
only its owner writes it. -/
theorem worker_queue_slot_ownership (owner : δ → τ) (capacity : δ → Nat)
    (hcap : ∀ d, acceptsCapacity (capacity d))
    (s : Machine.Shared τ (Queues δ κ τ α) (Op δ κ α))
    (hs : (queueMachine owner capacity hcap).Reachable s) (d : δ) :
    (s.mem.deque d).buffer.capacity = capacity d ∧
      SlotOwnership (s.mem.deque d) d s.threads ∧
      ∀ x cursor, (s.threads x).Writes d cursor → owner d = x := by
  obtain ⟨hinv, hcapacity, howner⟩ := queueMachine_dequesInv hs
  refine ⟨hcapacity d, hinv.slotOwnership d, fun x cursor hw => howner x d ?_⟩
  obtain ⟨tail, room, filled, hown, -⟩ := hw.cases (hinv.localOk x)
  exact (Op.ownAt_isSome_iff _ _).mp (by simp [hown])

/-! ## A concrete run -/

/-- Some steps of one thread. -/
def QueueLabel.ticks (t : τ) (n : Nat) : List (QueueLabel δ κ τ α) :=
  List.replicate n (.tick t false)

/-- A call, its steps and its return. -/
def QueueLabel.wholeCall (t : τ) (c : QueueCall δ κ α) (n : Nat) (r : QueueRes α) :
    List (QueueLabel δ κ τ α) :=
  .call t c :: ticks t n ++ [.ret t r]

theorem acceptsTwo : ∀ _ : Bool, acceptsCapacity 2 :=
  fun _ => ⟨by decide, by decide, 1, rfl⟩

/-- Two deques of two slots, whose cursors are about to wrap. -/
def twoDeques : Machine.Shared Bool (Queues Bool Unit Bool Nat) (Op Bool Unit Nat) where
  mem := ⟨fun d => .startingAt 0xFFFFFFFF 2 (acceptsTwo d), fun _ => .fromQueue []⟩
  threads := fun _ => .idle

theorem twoDeques_init : (queueMachine id (fun _ => 2) acceptsTwo).init twoDeques :=
  ⟨fun _ => ⟨0xFFFFFFFF, rfl⟩, fun _ => ⟨[], rfl⟩, fun _ => rfl⟩

/-- One thread pushes, the other one steals what was pushed. -/
def wrappingSteal : List (QueueLabel Bool Unit Bool Nat) :=
  [.call true (.push true 7)] ++ List.replicate 4 (.tick true false) ++ [.ret true .pushed] ++
    [.call false (.trySteal true 1 false)] ++ List.replicate 10 (.tick false false) ++
    [.ret false (.stole (.success 1))]

/-- The protocol holds after a steal across the wrap. -/
theorem slot_ownership_after_a_wrapping_steal :
    ∃ s, (queueMachine id (fun _ => 2) acceptsTwo).run twoDeques wrappingSteal = some s ∧
      SlotOwnership (s.mem.deque false) false s.threads := by
  have hsome : ((queueMachine id (fun _ => 2) acceptsTwo).run twoDeques wrappingSteal).isSome := by
    decide +kernel
  obtain ⟨s, hs⟩ := Option.isSome_iff_exists.mp hsome
  exact ⟨s, hs, (worker_queue_slot_ownership id (fun _ => 2) acceptsTwo s
    (Machine.Reachable.run (.init twoDeques_init) hs) false).2.1⟩

end XynokConcurrency
