/-
# A slot that is being written

Between `ajitter_put_ptr` and `ajitter_put_done` the slot belongs to the producer.  A free
slot is not marked as used, so no consumer finds it.  When no slot is free,
`ajitter_put_ptr` empties the buffer, marks slot 0 as used and sets `last` to 0 to hide it;
the stamp that slot 0 still has from its previous packet decides whether it is hidden.
-/
import Tcsip.Ajitter
import Tcsip.Runs

variable {τ : Type*} [LE τ] [DecidableLE τ] [Zero τ]

/-! ## Producer and consumer -/

/-- A producer that gives its slot up does nothing more with it, so that is no event. -/
inductive SlotEvent (τ : Type*)
  | putPtr
  | write (bs : List Byte) (left : ℤ)
  | putDone (time : τ)
  | getPtr
  | copyChunk (size : ℤ) (ob : ℕ → Byte)

/-- The buffer, and the slot of the latest `ajitter_put_ptr` if there was no
`ajitter_put_done` on it yet. -/
structure SlotRun (τ : Type*) where
  aj : Ajitter τ
  pending : Option (Fin AJD)

/-- One call of the producer or of the consumer. -/
def slotStep (b : Build) (s : SlotRun τ) : SlotEvent τ → Option (SlotRun τ)
  | .putPtr =>
    let (aj, idx) := ajitterPutPtr s.aj
    some ⟨aj, some idx⟩
  | .write bs left => s.pending.map fun idx => ⟨fillSlot s.aj idx bs left, some idx⟩
  | .putDone time => s.pending.map fun idx => ⟨ajitterPutDone b s.aj idx time, none⟩
  | .getPtr => some s
  | .copyChunk size ob =>
    (ajitterCopyChunk b s.aj size ob none).map fun r => ⟨r.aj, s.pending⟩

/-- The slots that `ajitter_get_ptr` returns one after the other in the loop of
`ajitter_copy_chunk`. -/
def copyReads (b : Build) (size : ℤ) : ℕ → Ajitter τ → (ℕ → Byte) → List (Fin AJD)
  | 0, _, _ => []
  | fuel + 1, aj, ob =>
    match ajitterGetPtr aj with
    | none => []
    | some idx =>
      let (aj', ob') := copyRound b size aj ob idx
      idx :: if aj'.outHave < size then copyReads b size fuel aj' ob' else []

/-- No consumer step from here is given the pending slot. -/
def SlotRun.Hidden (b : Build) (s : SlotRun τ) : Prop :=
  ∀ idx ∈ s.pending, ajitterGetPtr s.aj ≠ some idx ∧
    ∀ size ob, idx ∉ copyReads b size (AJD + 1) s.aj ob

/-- `ajitter_put_ptr` does not find every slot used and slot 0 with a stamp up to 0. -/
def StampHides (s : SlotRun τ) : SlotEvent τ → Prop
  | .putPtr => s.aj.Full → ¬ s.aj.time 0 ≤ 0
  | _ => True

/-! ## What a consumer reads -/

omit [Zero τ] in
theorem copyReads_of_some {b : Build} {size : ℤ} {fuel : ℕ} {aj : Ajitter τ} {ob : ℕ → Byte}
    {idx : Fin AJD} (h : ajitterGetPtr aj = some idx) :
    copyReads b size (fuel + 1) aj ob =
      idx :: if (copyRound b size aj ob idx).1.outHave < size then
        copyReads b size fuel (copyRound b size aj ob idx).1 (copyRound b size aj ob idx).2
      else [] := by
  rw [copyReads, h]

omit [Zero τ] in
/-- A chunk is copied out of used slots. -/
theorem used_of_mem_copyReads {b : Build} {size : ℤ} {fuel : ℕ} {aj : Ajitter τ}
    {ob : ℕ → Byte} {i : Fin AJD} (h : i ∈ copyReads b size fuel aj ob) : aj.Used i := by
  induction fuel generalizing aj ob with
  | zero => exact absurd h List.not_mem_nil
  | succ fuel ih =>
      cases hget : ajitterGetPtr aj with
      | none =>
          rw [copyReads, hget] at h
          exact absurd h List.not_mem_nil
      | some idx =>
          rw [copyReads_of_some hget] at h
          have hidx := ajitterGetPtr_used hget
          rcases List.mem_cons.mp h with rfl | h
          · exact hidx
          · split at h
            · exact (consumed_copyRound hidx).used i (ih h)
            · exact absurd h List.not_mem_nil

/-! ## The pending slot -/

/-- A pending slot that is marked as used is the only one. -/
def SlotRun.Alone (s : SlotRun τ) : Prop :=
  ∀ idx ∈ s.pending, s.aj.Used idx → ∀ j, s.aj.Used j → j = idx

/-- A pending slot that is marked as used has a stamp that `last` hides. -/
def SlotRun.Masked (s : SlotRun τ) : Prop :=
  ∀ idx ∈ s.pending, s.aj.Used idx → ¬ s.aj.time idx ≤ s.aj.last

omit [Zero τ] in
theorem hidden_iff_masked {b : Build} {s : SlotRun τ} (h : s.Alone) :
    s.Hidden b ↔ s.Masked := by
  constructor
  · intro hhid idx hidx hused hle
    refine (hhid idx hidx).1 (ajitterGetPtr_eq_some hused hle fun j hj hne => ?_)
    exact absurd (h idx hidx hused j hj) hne
  · intro hmask idx hidx
    by_cases hused : s.aj.Used idx
    · -- nothing at all is returned
      have hnone : ajitterGetPtr s.aj = none := by
        cases hget : ajitterGetPtr s.aj with
        | none => rfl
        | some i =>
            obtain ⟨j, hj, hle⟩ := ajitterGetPtr_visible hget
            obtain rfl := h idx hidx hused j hj
            exact absurd hle (hmask j hidx hused)
      refine ⟨fun heq => Option.some_ne_none idx (heq.symm.trans hnone), fun size ob => ?_⟩
      rw [copyReads, hnone]
      exact List.not_mem_nil
    · exact ⟨fun heq => hused (ajitterGetPtr_used heq),
        fun size ob hmem => hused (used_of_mem_copyReads hmem)⟩

theorem used_one_iff {j : Fin AJD} : Flags.Test 1#32 (mask j) ↔ j = 0 := by
  have hmask : mask 0 = 1#32 := by decide
  rw [← hmask]
  exact test_mask_mask

/-- Every step keeps a pending slot alone, even one that should not have been taken. -/
theorem alone_slotStep {b : Build} {s t : SlotRun τ} {e : SlotEvent τ} (h : s.Alone)
    (hstep : slotStep b s e = some t) : t.Alone := by
  cases e with
  | putPtr =>
      rcases ajitterPutPtr_cases s.aj with ⟨i, hfree, -, heq⟩ | ⟨-, heq⟩
      · rw [slotStep, heq] at hstep
        obtain rfl := Option.some.inj hstep
        intro idx hidx hused
        obtain rfl := Option.some.inj hidx
        exact absurd hused hfree
      · rw [slotStep, heq] at hstep
        obtain rfl := Option.some.inj hstep
        intro idx hidx _ j hj
        obtain rfl := Option.some.inj hidx
        exact used_one_iff.mp hj
  | write bs left =>
      obtain ⟨i, hi, rfl⟩ := Option.map_eq_some_iff.mp hstep
      intro idx hidx
      exact h idx (hi.trans hidx)
  | putDone time =>
      obtain ⟨i, hi, rfl⟩ := Option.map_eq_some_iff.mp hstep
      intro idx hidx
      exact absurd hidx (Option.not_mem_none idx)
  | getPtr =>
      obtain rfl := Option.some.inj hstep
      exact h
  | copyChunk size ob =>
      obtain ⟨r, hr, rfl⟩ := Option.map_eq_some_iff.mp hstep
      have hc := consumed_copyLoop hr
      intro idx hidx hused j hj
      exact h idx hidx (hc.used idx hused) j (hc.used j hj)

/-- What a step makes of the pending slot. -/
theorem masked_slotStep_iff {b : Build} {s t : SlotRun τ} {e : SlotEvent τ} (hm : s.Masked)
    (hstep : slotStep b s e = some t) : t.Masked ↔ StampHides s e := by
  cases e with
  | putPtr =>
      rcases ajitterPutPtr_cases s.aj with ⟨i, hfree, -, heq⟩ | ⟨hfull, heq⟩
      · rw [slotStep, heq] at hstep
        obtain rfl := Option.some.inj hstep
        refine iff_of_true ?_ fun hfull => absurd (hfull i) hfree
        intro idx hidx hused
        obtain rfl := Option.some.inj hidx
        exact absurd hused hfree
      · rw [slotStep, heq] at hstep
        obtain rfl := Option.some.inj hstep
        constructor
        · exact fun h _ => h 0 rfl (used_one_iff.mpr rfl)
        · intro h idx hidx _
          obtain rfl := Option.some.inj hidx
          exact h hfull
  | write bs left =>
      obtain ⟨i, hi, rfl⟩ := Option.map_eq_some_iff.mp hstep
      exact iff_of_true (fun idx hidx => hm idx (hi.trans hidx)) trivial
  | putDone time =>
      obtain ⟨i, hi, rfl⟩ := Option.map_eq_some_iff.mp hstep
      exact iff_of_true (fun idx hidx => absurd hidx (Option.not_mem_none idx)) trivial
  | getPtr =>
      obtain rfl := Option.some.inj hstep
      exact iff_of_true hm trivial
  | copyChunk size ob =>
      obtain ⟨r, hr, rfl⟩ := Option.map_eq_some_iff.mp hstep
      have hc := consumed_copyLoop hr
      refine iff_of_true (fun idx hidx hused => ?_) trivial
      rw [hc.time, hc.last]
      exact hm idx hidx (hc.used idx hused)

/-- **A pending slot stays hidden exactly while every `ajitter_put_ptr` on a full buffer
finds a stamp above 0 in slot 0**, over every interleaving of the two sides. -/
theorem always_hidden_iff (b : Build) (aj : Ajitter τ) (es : List (SlotEvent τ)) :
    Runs.Always (slotStep b) (SlotRun.Hidden b) ⟨aj, none⟩ es ↔
      Runs.StepsMeet (slotStep b) StampHides ⟨aj, none⟩ es := by
  apply Runs.always_iff_stepsMeet (slotStep b) (I := SlotRun.Alone)
  · exact fun s e t hI _ hstep => alone_slotStep hI hstep
  · intro s e t hI hB hstep
    rw [hidden_iff_masked (alone_slotStep hI hstep)]
    exact masked_slotStep_iff ((hidden_iff_masked hI).mp hB) hstep
  · intro s e _ _ hstep
    cases e with
    | putPtr => exact nomatch hstep
    | write bs left => trivial
    | putDone time => trivial
    | getPtr => trivial
    | copyChunk size ob => trivial
  · exact fun idx hidx => absurd hidx (Option.not_mem_none idx)
  · exact fun idx hidx => absurd hidx (Option.not_mem_none idx)

/-- 32 unread packets, the first of them with sequence number 0, and one that is just being
received: the reader is given its slot. -/
theorem pending_slot_is_read :
    let s : SlotRun ℤ := ⟨ajitterInit 320 ⟨fun _ => 0, fun _ => 0, fun _ => 0⟩, none⟩
    let packet (seq : ℕ) : List (SlotEvent ℤ) := [.putPtr, .write [7, 7] 2, .putDone seq]
    let es := (List.range 32).flatMap packet ++ [.putPtr]
    ((Runs.run (slotStep .other) s es).map fun t => (t.pending, ajitterGetPtr t.aj)) =
      some (some 0, some 0) := by
  decide +kernel
