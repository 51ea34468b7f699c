/-
# The two builds of the jitter buffer

On Apple systems `bset` and `bdrop` both flip the bit; elsewhere `bset` sets it and `bdrop`
clears it.  A consumer clears only bits that are set, so it sees no difference.  A producer
sets only bits that are clear, as long as there is a free slot; when there is none,
`ajitter_put_ptr` marks slot 0 as used before it hands it out, and the flip of
`ajitter_put_done` takes the mark away.
-/
import Tcsip.Ajitter
import Tcsip.Runs

variable {τ : Type*} [LE τ] [DecidableLE τ] [Zero τ]

/-! ## The operations -/

/-- A packet that is put (`left` need not be the number of bytes), or a chunk of `size`
bytes copied to `ob`. -/
inductive JitterOp (τ : Type*)
  | put (bs : List Byte) (left : ℤ) (time : τ)
  | copy (size : ℤ) (ob : ℕ → Byte)

/-- What the caller of an operation gets. -/
inductive JitterResult (τ : Type*)
  | slot (idx : Fin AJD)
  | copied (ret : Bool) (ob : ℕ → Byte) (ts : Option τ)

/-- The buffer and the result of the operation before. -/
structure JitterRun (τ : Type*) where
  aj : Ajitter τ
  result : Option (JitterResult τ)

/-- An operation, with what it returns; a copy that the source leaves undefined has no next
state. -/
def jitterStep (b : Build) (s : JitterRun τ) : JitterOp τ → Option (JitterRun τ)
  | .put bs left time =>
    let (aj, idx) := ajitterPutPtr s.aj
    some ⟨ajitterPutDone b (fillSlot aj idx bs left) idx time, some (.slot idx)⟩
  | .copy size ob =>
    (ajitterCopyChunk b s.aj size ob none).map fun r =>
      ⟨r.aj, some (.copied r.ret r.ob r.ts)⟩

/-- The mask of used slots and the result. -/
def JitterRun.seen (s : JitterRun τ) : BitVec 32 × Option (JitterResult τ) :=
  (s.aj.used, s.result)

/-- A put finds a free slot. -/
def FindsRoom (s : JitterRun τ) : JitterOp τ → Prop
  | .put _ _ _ => ¬ s.aj.Full
  | .copy _ _ => True

/-! ## Where the builds agree -/

theorem bset_apple_eq {u : BitVec 32} {idx : Fin AJD} (h : ¬ Flags.Test u (mask idx)) :
    bset .apple u idx = bset .other u idx := Flags.xor_twoPow_of_not_test h

theorem bdrop_apple_eq {u : BitVec 32} {idx : Fin AJD} (h : Flags.Test u (mask idx)) :
    bdrop .apple u idx = bdrop .other u idx := Flags.xor_twoPow_of_test h

omit [LE τ] [DecidableLE τ] [Zero τ] in
theorem copyRound_apple_eq {size : ℤ} {aj : Ajitter τ} {ob : ℕ → Byte} {idx : Fin AJD}
    (h : aj.Used idx) : copyRound .apple size aj ob idx = copyRound .other size aj ob idx := by
  unfold copyRound ajitterGetDone
  dsimp only
  rw [bdrop_apple_eq h]

omit [Zero τ] in
/-- The consumer is the same in both builds, whatever the state. -/
theorem copyLoop_apple_eq (size : ℤ) (fuel : ℕ) (aj : Ajitter τ) (ob : ℕ → Byte)
    (ts : Option τ) : copyLoop .apple size fuel aj ob ts = copyLoop .other size fuel aj ob ts := by
  induction fuel generalizing aj ob ts with
  | zero => rfl
  | succ fuel ih =>
      cases hget : ajitterGetPtr aj with
      | none => rw [copyLoop_of_none hget, copyLoop_of_none hget]
      | some idx =>
          rw [copyLoop_of_some hget, copyLoop_of_some hget,
            copyRound_apple_eq (ajitterGetPtr_used hget), ih]

/-- An operation that finds room, if it needs any, is the same in both builds. -/
theorem jitterStep_apple_eq {s : JitterRun τ} {op : JitterOp τ} (h : FindsRoom s op) :
    jitterStep .apple s op = jitterStep .other s op := by
  cases op with
  | put bs left time =>
      obtain ⟨idx, hfree, hput⟩ := ajitterPutPtr_of_not_full h
      unfold jitterStep ajitterPutDone
      rw [hput]
      dsimp only [fillSlot]
      rw [bset_apple_eq hfree]
  | copy size ob =>
      unfold jitterStep ajitterCopyChunk
      dsimp only
      rw [copyLoop_apple_eq]

/-- A put into a full buffer leaves slot 0 free in the one build and used in the other. -/
theorem jitterStep_apple_ne {s : JitterRun τ} {op : JitterOp τ} (h : ¬ FindsRoom s op) :
    ∃ t u, jitterStep .apple s op = some t ∧ jitterStep .other s op = some u ∧
      t.seen ≠ u.seen := by
  cases op with
  | put bs left time =>
      have hfull : s.aj.Full := not_not.mp h
      unfold jitterStep
      rw [ajitterPutPtr_of_full hfull]
      refine ⟨_, _, rfl, rfl, fun heq => ?_⟩
      have hused : bset .apple 1#32 0 = bset .other 1#32 0 := (Prod.ext_iff.mp heq).1
      exact absurd hused (by decide)
  | copy size ob => exact absurd trivial h

/-- **The builds agree exactly while no put finds the buffer full.** -/
theorem trace_apple_eq_iff (s : JitterRun τ) (ops : List (JitterOp τ)) :
    Runs.trace (jitterStep .apple) JitterRun.seen s ops =
        Runs.trace (jitterStep .other) JitterRun.seen s ops ↔
      Runs.StepsMeet (jitterStep .other) FindsRoom s ops :=
  Runs.trace_eq_iff (fun _ _ => jitterStep_apple_eq) (fun _ _ => jitterStep_apple_ne) s ops

/-- 33 packets and no read: the buffer of the one build then holds a packet, that of the
other is empty. -/
theorem builds_differ_after_overflow :
    let s : JitterRun ℤ := ⟨ajitterInit 320 ⟨fun _ => 0, fun _ => 0, fun _ => 0⟩, none⟩
    let ops : List (JitterOp ℤ) := List.replicate 33 (.put [0, 0] 2 1)
    ((Runs.run (jitterStep .apple) s ops).map fun t => t.aj.used) = some 0#32 ∧
      ((Runs.run (jitterStep .other) s ops).map fun t => t.aj.used) = some 1#32 ∧
      Runs.trace (jitterStep .apple) JitterRun.seen s ops ≠
        Runs.trace (jitterStep .other) JitterRun.seen s ops := by
  refine ⟨by decide +kernel, by decide +kernel, fun h => ?_⟩
  have hused := congrArg (fun l => (l.map Prod.fst).getLast?) h
  revert hused
  decide +kernel
