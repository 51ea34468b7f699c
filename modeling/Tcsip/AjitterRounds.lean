/-
# The rounds of `ajitter_copy_chunk`

The loop of `ajitter_copy_chunk` has no counter: it goes back to `retry` as long as the chunk
is not complete.  Here the states at `retry` are recorded (`copyRounds`).  From one to the next
a single used slot is released (`ReleasesSlot`), whatever lengths the packets claim, so there are
at most as many repetitions as bits are set in the mask (`ajitterCopyChunk_rounds`).
-/
import Tcsip.Ajitter

variable {τ : Type*}

/-- A single slot, which was in use, was released. -/
def ReleasesSlot (aj aj' : Ajitter τ) : Prop :=
  ∃ idx, aj.Used idx ∧ ∀ j, aj'.Used j ↔ aj.Used j ∧ j ≠ idx

variable [LE τ] [DecidableLE τ]

/-- The loop of `ajitter_copy_chunk`, with the states in which it is at `retry`. -/
def copyRounds (b : Build) (size : ℤ) :
    ℕ → Ajitter τ → (ℕ → Byte) → Option τ → Option (Copied τ × List (Ajitter τ))
  | 0, _, _, _ => none
  | fuel + 1, aj, ob, ts =>
    match ajitterGetPtr aj with
    | none => some (⟨aj, ob, ts, false⟩, [aj])
    | some idx =>
      let (aj', ob') := copyRound b size aj ob idx
      if aj'.outHave < size then
        (copyRounds b size fuel aj' ob' (some (aj.time idx))).map fun r => (r.1, aj :: r.2)
      else some (⟨{ aj' with outHave := 0 }, ob', some (aj.time idx), true⟩, [aj])

variable {b : Build} {size : ℤ} {fuel : ℕ} {aj : Ajitter τ} {ob : ℕ → Byte} {ts : Option τ}

theorem copyRounds_of_none (h : ajitterGetPtr aj = none) :
    copyRounds b size (fuel + 1) aj ob ts = some (⟨aj, ob, ts, false⟩, [aj]) := by
  rw [copyRounds, h]

theorem copyRounds_of_some {idx : Fin AJD} (h : ajitterGetPtr aj = some idx) :
    copyRounds b size (fuel + 1) aj ob ts =
      if (copyRound b size aj ob idx).1.outHave < size then
        (copyRounds b size fuel (copyRound b size aj ob idx).1 (copyRound b size aj ob idx).2
          (some (aj.time idx))).map fun r => (r.1, aj :: r.2)
      else some (⟨{ (copyRound b size aj ob idx).1 with outHave := 0 },
        (copyRound b size aj ob idx).2, some (aj.time idx), true⟩, [aj]) := by
  rw [copyRounds, h]

/-- When the chunk is complete the loop ends. -/
theorem copyRounds_of_stop {idx : Fin AJD} (h : ajitterGetPtr aj = some idx)
    (hstop : ¬ (copyRound b size aj ob idx).1.outHave < size) :
    copyRounds b size (fuel + 1) aj ob ts =
      some (⟨{ (copyRound b size aj ob idx).1 with outHave := 0 },
        (copyRound b size aj ob idx).2, some (aj.time idx), true⟩, [aj]) := by
  rw [copyRounds_of_some h, if_neg hstop]

/-- The record does not change what the loop does. -/
theorem copyRounds_fst :
    (copyRounds b size fuel aj ob ts).map Prod.fst = copyLoop b size fuel aj ob ts := by
  induction fuel generalizing aj ob ts with
  | zero => rfl
  | succ fuel ih =>
      cases hget : ajitterGetPtr aj with
      | none =>
          rw [copyRounds_of_none hget, copyLoop_of_none hget]
          rfl
      | some idx =>
          rw [copyRounds_of_some hget, copyLoop_of_some hget]
          split
          · rw [← ih, Option.map_map]
            rfl
          · rfl

/-- A loop that ends in its first round does so with any fuel. -/
theorem copyRounds_of_lt {n : ℕ} {r : Copied τ × List (Ajitter τ)}
    (h : ∀ fuel, copyRounds b size (fuel + 1) aj ob ts = some r) :
    ∀ fuel, n < fuel → copyRounds b size fuel aj ob ts = some r := by
  intro fuel hfuel
  obtain ⟨fuel, rfl⟩ := Nat.exists_eq_succ_of_ne_zero (Nat.ne_zero_of_lt hfuel)
  exact h fuel

/-- **Every repetition releases a slot.**  With `n` slots in use the loop ends within `n + 1`
rounds, and with more fuel it does the same. -/
theorem copyRounds_releases (b : Build) (size : ℤ) {n : ℕ} {aj : Ajitter τ}
    (hn : aj.slots.length = n) (ob : ℕ → Byte) (ts : Option τ) :
    ∃ r rounds, (∀ fuel, n < fuel → copyRounds b size fuel aj ob ts = some (r, rounds)) ∧
      rounds.head? = some aj ∧ rounds.length ≤ n + 1 ∧ rounds.IsChain ReleasesSlot := by
  induction n using Nat.strong_induction_on generalizing aj ob ts with
  | h n ih =>
      have hone : [aj].length ≤ n + 1 := Nat.succ_le_succ (Nat.zero_le n)
      cases hget : ajitterGetPtr aj with
      | none =>
          exact ⟨_, [aj], copyRounds_of_lt fun fuel => copyRounds_of_none hget, rfl, hone,
            List.isChain_singleton aj⟩
      | some idx =>
          have hused : aj.Used idx := ajitterGetPtr_used hget
          by_cases hretry : (copyRound b size aj ob idx).1.outHave < size
          · have hslots := length_slots_of_retry hused hretry
            rw [hn] at hslots
            obtain ⟨r, rounds, hrun, hhead, hlen, hchain⟩ :=
              ih _ hslots rfl (copyRound b size aj ob idx).2 (some (aj.time idx))
            refine ⟨r, aj :: rounds, fun fuel hfuel => ?_, rfl, ?_, ?_⟩
            · obtain ⟨fuel, rfl⟩ := Nat.exists_eq_succ_of_ne_zero (Nat.ne_zero_of_lt hfuel)
              have hrest := hrun fuel (Nat.lt_of_lt_of_le hslots (Nat.le_of_lt_succ hfuel))
              rw [copyRounds_of_some hget, if_pos hretry, hrest, Option.map_some]
            · exact Nat.succ_le_succ (hlen.trans hslots)
            · -- the next round starts with this slot released
              refine List.isChain_cons.mpr ⟨fun aj' haj' => ?_, hchain⟩
              rw [hhead] at haj'
              obtain rfl := Option.some.inj haj'
              exact ⟨idx, hused, used_iff_of_retry hused hretry⟩
          · exact ⟨_, [aj], copyRounds_of_lt fun fuel => copyRounds_of_stop hget hretry, rfl, hone,
              List.isChain_singleton aj⟩

/-- **`ajitter_copy_chunk` ends after at most one round more than bits are set in `used`**, and
each repetition has released just one used slot. -/
theorem ajitterCopyChunk_rounds (b : Build) (aj : Ajitter τ) (size : ℤ) (ob : ℕ → Byte)
    (ts : Option τ) :
    ∃ r rounds, ajitterCopyChunk b aj size ob ts = some r ∧
      (∀ fuel, Flags.count aj.used < fuel →
        copyRounds b size fuel aj ob ts = some (r, rounds)) ∧
      rounds.head? = some aj ∧ rounds.length ≤ Flags.count aj.used + 1 ∧
      rounds.IsChain ReleasesSlot := by
  obtain ⟨r, rounds, hrun, hhead, hlen, hchain⟩ :=
    copyRounds_releases b size aj.length_slots ob ts
  refine ⟨r, rounds, ?_, hrun, hhead, hlen, hchain⟩
  have hfuel : Flags.count aj.used < AJD + 1 := by
    rw [← aj.length_slots]
    exact Nat.lt_succ_of_le aj.length_slots_le
  rw [ajitterCopyChunk, ← copyRounds_fst, hrun _ hfuel, Option.map_some]
