/-
# Versions of a blob

A client that stores blobs one after the other expects that under every `idx` exactly
the newest row is current.  Each write obsoletes the rows of its `idx` whose key is
*textually* smaller than its own, so this is true of a sequence of writes exactly when
the keys written under one `idx` also print in the order they were written in
(`latestCurrent_iff`).  They do not when the microseconds gain a digit within one second.
-/
import Tcsip.Store

variable {ι β : Type} [LinearOrder ι]

/-- One call of `store_add_state` with the key `store_key` gives at the time `now`. -/
structure StoreWrite (ι β : Type) where
  now : Timeval
  idx : ι
  blob : β
  state : ℤ

/-- The row the call inserts. -/
def StoreWrite.row (c : StoreClient) (w : StoreWrite ι β) : Row ι β :=
  { blobKey := storeKey c w.now, idx := w.idx, blob := w.blob, curnt := w.state }

/-- The table after a sequence of calls through the client. -/
def storeWrites (c : StoreClient) (T : List (Row ι β)) (ws : List (StoreWrite ι β)) :
    List (Row ι β) :=
  ws.foldl (fun T w => storeAddState c (storeKey c w.now) w.idx w.blob w.state T) T

/-- The last call for `i`. -/
def lastWrite (i : ι) (ws : List (StoreWrite ι β)) : Option (StoreWrite ι β) :=
  (ws.filter fun w => decide (w.idx = i)).getLast?

/-- For every `idx` written, exactly one row of the client is current, and it is the one
written last. -/
def LatestCurrent (c : StoreClient) (T : List (Row ι β)) (ws : List (StoreWrite ι β)) :
    Prop :=
  ∀ i, ∀ w ∈ lastWrite i ws,
    ((current c T).filter fun r => decide (r.idx = i)) = [w.row c]

/-- The writes flag their rows as current under keys of the client, and two writes under
one `idx` are made at times that print in their order. -/
def PrintedInOrder (c : StoreClient) (ws : List (StoreWrite ι β)) : Prop :=
  (∀ w ∈ ws, w.state ≠ 0 ∧ c.owns (storeKey c w.now) = true) ∧
    ws.Pairwise fun w w' => w.idx = w'.idx → w.now.PrintsBefore w'.now

/-! ## One more write -/

theorem storeWrites_concat (c : StoreClient) (T : List (Row ι β))
    (ws : List (StoreWrite ι β)) (w : StoreWrite ι β) :
    storeWrites c T (ws ++ [w])
      = storeAddState c (storeKey c w.now) w.idx w.blob w.state (storeWrites c T ws) := by
  rw [storeWrites, List.foldl_concat, storeWrites]

theorem lastWrite_concat (i : ι) (ws : List (StoreWrite ι β)) (w : StoreWrite ι β) :
    lastWrite i (ws ++ [w]) = if w.idx = i then some w else lastWrite i ws := by
  rw [lastWrite, List.filter_append]
  by_cases h : w.idx = i
  · rw [if_pos h, List.filter_cons_of_pos (by simpa using h), List.filter_nil,
      List.getLast?_concat]
  · rw [if_neg h, List.filter_cons_of_neg (by simpa using h), List.filter_nil,
      List.append_nil, lastWrite]

/-- Every current row was inserted by one of the calls. -/
theorem exists_write_of_mem_current {c : StoreClient} {T : List (Row ι β)}
    (hT : current c T = []) (ws : List (StoreWrite ι β)) :
    ∀ r ∈ current c (storeWrites c T ws), ∃ w ∈ ws, r = w.row c := by
  induction ws using List.reverseRecOn with
  | nil =>
    intro r hr
    rw [storeWrites, List.foldl_nil, hT] at hr
    exact absurd hr List.not_mem_nil
  | append_singleton ws w ih =>
    intro r hr
    rw [storeWrites_concat, current_storeAddState, List.mem_append] at hr
    rcases hr with hr | hr
    · obtain ⟨w', hw', rfl⟩ := ih r (List.mem_filter.mp hr).1
      exact ⟨w', List.mem_append_left _ hw', rfl⟩
    · split at hr
      · rw [List.mem_singleton] at hr
        exact ⟨w, by simp, hr⟩
      · exact absurd hr List.not_mem_nil

/-- Under an `idx` that was not written yet there is no current row. -/
theorem currentAt_of_lastWrite_eq_none {c : StoreClient} {T : List (Row ι β)}
    (hT : current c T = []) {ws : List (StoreWrite ι β)} {i : ι}
    (h : lastWrite i ws = none) :
    ((current c (storeWrites c T ws)).filter fun r => decide (r.idx = i)) = [] := by
  rw [List.filter_eq_nil_iff]
  intro r hr
  obtain ⟨w, hw, rfl⟩ := exists_write_of_mem_current hT ws r hr
  rw [lastWrite, List.getLast?_eq_none_iff, List.filter_eq_nil_iff] at h
  exact h w hw

/-- The rows under `i` after one more write. -/
theorem currentAt_concat (c : StoreClient) (T : List (Row ι β)) (ws : List (StoreWrite ι β))
    (w : StoreWrite ι β) (i : ι) :
    ((current c (storeWrites c T (ws ++ [w]))).filter fun r => decide (r.idx = i))
      = (((current c (storeWrites c T ws)).filter fun r => decide (r.idx = i)).filter
          fun r => !decide (r.idx = w.idx ∧ r.blobKey < storeKey c w.now)) ++
        ((if c.owns (storeKey c w.now) = true ∧ w.state ≠ 0 then [w.row c] else []).filter
          fun r => decide (r.idx = i)) := by
  rw [storeWrites_concat, current_storeAddState, List.filter_append, List.filter_comm]
  rfl

/-- Under another `idx` a write changes nothing. -/
theorem currentAt_concat_of_ne (c : StoreClient) (T : List (Row ι β))
    (ws : List (StoreWrite ι β)) {w : StoreWrite ι β} {i : ι} (hi : w.idx ≠ i) :
    ((current c (storeWrites c T (ws ++ [w]))).filter fun r => decide (r.idx = i))
      = (current c (storeWrites c T ws)).filter fun r => decide (r.idx = i) := by
  have hnone : ((if c.owns (storeKey c w.now) = true ∧ w.state ≠ 0 then [w.row c]
      else []).filter fun r => decide (r.idx = i)) = [] := by
    rw [List.filter_eq_nil_iff]
    intro r hr
    split at hr
    · rw [List.mem_singleton.mp hr]
      exact fun h => hi (of_decide_eq_true h)
    · exact absurd hr List.not_mem_nil
  rw [currentAt_concat, hnone, List.append_nil, List.filter_eq_self]
  intro r hr
  have hri : r.idx = i := by simpa using (List.mem_filter.mp hr).2
  simp [hri, Ne.symm hi]

/-- Only the `idx` that is written has to be looked at. -/
theorem latestCurrent_concat_iff_at {c : StoreClient} {T : List (Row ι β)}
    {ws : List (StoreWrite ι β)} (h : LatestCurrent c (storeWrites c T ws) ws)
    (w : StoreWrite ι β) :
    LatestCurrent c (storeWrites c T (ws ++ [w])) (ws ++ [w]) ↔
      ((current c (storeWrites c T (ws ++ [w]))).filter fun r => decide (r.idx = w.idx))
        = [w.row c] := by
  constructor
  · intro hlatest
    exact hlatest w.idx w (by rw [lastWrite_concat, if_pos rfl]; rfl)
  · intro hnew i v hv
    rw [lastWrite_concat] at hv
    by_cases hi : w.idx = i
    · rw [if_pos hi] at hv
      obtain rfl := Option.some.inj hv
      rw [← hi, hnew]
    · rw [if_neg hi] at hv
      rw [currentAt_concat_of_ne c T ws hi]
      exact h i v hv

/-- **One more write.**  It keeps exactly the newest rows current when its row is flagged
and visible, and its key prints after that of the last write under its `idx`. -/
theorem latestCurrent_concat_iff {c : StoreClient} {T : List (Row ι β)}
    (hT : current c T = []) {ws : List (StoreWrite ι β)}
    (h : LatestCurrent c (storeWrites c T ws) ws) (w : StoreWrite ι β) :
    LatestCurrent c (storeWrites c T (ws ++ [w])) (ws ++ [w]) ↔
      (c.owns (storeKey c w.now) = true ∧ w.state ≠ 0) ∧
        ∀ w' ∈ lastWrite w.idx ws, storeKey c w'.now < storeKey c w.now := by
  rw [latestCurrent_concat_iff_at h w, currentAt_concat]
  by_cases hok : c.owns (storeKey c w.now) = true ∧ w.state ≠ 0
  · rw [if_pos hok, List.filter_cons_of_pos (by simp [StoreWrite.row]), List.filter_nil,
      List.append_left_eq_self]
    simp only [hok, ne_eq, not_false_eq_true, and_self, true_and]
    cases hlast : lastWrite w.idx ws with
    | none => simp [currentAt_of_lastWrite_eq_none hT hlast]
    | some v =>
      -- so far the row of `v` is the only one under this `idx`
      rw [h w.idx v hlast]
      have hv : v.idx = w.idx := by
        have hmem := List.mem_of_getLast? hlast
        simpa using (List.mem_filter.mp hmem).2
      simp [StoreWrite.row, hv]
  · rw [if_neg hok, List.filter_nil, List.append_nil]
    simp only [hok, false_and, iff_false]
    intro hrow
    -- a row like that of `w` among the current ones is flagged and visible
    have hmem : w.row c ∈ current c (storeWrites c T ws) := by
      have hmem' : w.row c ∈ [w.row c] := List.mem_singleton_self _
      rw [← hrow] at hmem'
      exact (List.mem_filter.mp (List.mem_filter.mp hmem').1).1
    exact hok ⟨(mem_current.mp hmem).2.1, (mem_current.mp hmem).2.2⟩

/-- When the earlier writes print in order, printing after the last one under an `idx` is
printing after all of them. -/
theorem printsBefore_last_iff {c : StoreClient} {ws : List (StoreWrite ι β)}
    (h : PrintedInOrder c ws) (w : StoreWrite ι β) :
    (∀ w' ∈ lastWrite w.idx ws, storeKey c w'.now < storeKey c w.now) ↔
      ∀ w' ∈ ws, w'.idx = w.idx → w'.now.PrintsBefore w.now := by
  constructor
  · intro hlast w' hw' hidx
    have hmem : w' ∈ ws.filter fun v => decide (v.idx = w.idx) :=
      List.mem_filter.mpr ⟨hw', by simpa using hidx⟩
    rcases List.eq_nil_or_concat' (ws.filter fun v => decide (v.idx = w.idx)) with hnil | ⟨L, l, hL⟩
    · rw [hnil] at hmem
      exact absurd hmem List.not_mem_nil
    · have hl : l ∈ lastWrite w.idx ws := by
        rw [lastWrite, hL, List.getLast?_concat]
        rfl
      have hlw : storeKey c l.now < storeKey c w.now := hlast l hl
      have hidxl : l.idx = w.idx := by
        have hlmem : l ∈ ws.filter fun v => decide (v.idx = w.idx) := by
          rw [hL]
          simp
        simpa using (List.mem_filter.mp hlmem).2
      rw [hL, List.mem_append, List.mem_singleton] at hmem
      rcases hmem with hin | rfl
      · -- `w'` prints before the last one, which prints before `w`
        have hpair := h.2.sublist (List.filter_sublist (p := fun v => decide (v.idx = w.idx)))
        rw [hL, List.pairwise_append] at hpair
        have hbefore := hpair.2.2 w' hin l (List.mem_singleton_self l) (hidx.trans hidxl.symm)
        rw [← storeKey_lt_iff c] at hbefore ⊢
        exact lt_trans hbefore hlw
      · exact (storeKey_lt_iff c _ _).mp hlw
  · intro hall w' hw'
    have hmem := List.mem_filter.mp (List.mem_of_getLast? hw')
    exact (storeKey_lt_iff c _ _).mpr (hall w' hmem.1 (by simpa using hmem.2))

/-! ## Writes into an empty table -/

theorem storeWrites_append (c : StoreClient) (T : List (Row ι β)) (ws ws' : List (StoreWrite ι β)) :
    storeWrites c T (ws ++ ws') = storeWrites c (storeWrites c T ws) ws' :=
  List.foldl_append

/-- Every row was inserted by one of the calls. -/
theorem exists_write_of_mem (c : StoreClient) (ws : List (StoreWrite ι β)) :
    ∀ r ∈ storeWrites c [] ws, ∃ w ∈ ws, r.idx = w.idx ∧ r.blob = w.blob := by
  induction ws using List.reverseRecOn with
  | nil => exact fun r hr => absurd hr List.not_mem_nil
  | append_singleton ws w ih =>
    intro r hr
    rw [storeWrites_concat] at hr
    rcases mem_storeAddState hr with ⟨r₀, hr₀, -, hidx, hblob⟩ | ⟨-, hidx, hblob⟩
    · obtain ⟨v, hv, hvidx, hvblob⟩ := ih r₀ hr₀
      exact ⟨v, List.mem_append_left _ hv, hidx.trans hvidx, hblob.trans hvblob⟩
    · exact ⟨w, by simp, hidx, hblob⟩

/-- The last call is among the later ones, or they are all for something else. -/
theorem mem_lastWrite_append {i : ι} {ws ws' : List (StoreWrite ι β)} {w : StoreWrite ι β}
    (h : w ∈ lastWrite i (ws ++ ws')) :
    (w ∈ ws' ∧ w.idx = i) ∨ (w ∈ lastWrite i ws ∧ ∀ v ∈ ws', v.idx ≠ i) := by
  unfold lastWrite at h ⊢
  rw [List.filter_append, List.getLast?_append] at h
  cases hlast : (ws'.filter fun v => decide (v.idx = i)).getLast? with
  | none =>
    rw [hlast, Option.none_or] at h
    rw [List.getLast?_eq_none_iff, List.filter_eq_nil_iff] at hlast
    exact Or.inr ⟨h, fun v hv => by simpa using hlast v hv⟩
  | some v =>
    rw [hlast, Option.some_or] at h
    obtain rfl := Option.some.inj h
    have hmem := List.mem_filter.mp (List.mem_of_getLast? hlast)
    exact Or.inl ⟨hmem.1, of_decide_eq_true hmem.2⟩

/-- Writes at times that print in order leave the last row under each `idx`. -/
theorem latestCurrent_of_printedInOrder {c : StoreClient} {ws : List (StoreWrite ι β)}
    (h : PrintedInOrder c ws) : LatestCurrent c (storeWrites c [] ws) ws := by
  induction ws using List.reverseRecOn with
  | nil => exact fun i w hw => absurd hw (by simp [lastWrite])
  | append_singleton ws w ih =>
    have hpair := List.pairwise_append.mp h.2
    have hws : PrintedInOrder c ws :=
      ⟨fun v hv => h.1 v (List.mem_append_left _ hv), hpair.1⟩
    rw [latestCurrent_concat_iff rfl (ih hws) w, printsBefore_last_iff hws w]
    exact ⟨(h.1 w (by simp)).symm, fun v hv hidx => hpair.2.2 v hv w (by simp) hidx⟩

theorem exists_lastWrite {ws : List (StoreWrite ι β)} {w : StoreWrite ι β} (hw : w ∈ ws) :
    ∃ v ∈ lastWrite w.idx ws, v ∈ ws ∧ v.idx = w.idx := by
  have hne : ws.filter (fun v => decide (v.idx = w.idx)) ≠ [] :=
    List.ne_nil_of_mem (List.mem_filter.mpr ⟨hw, decide_eq_true rfl⟩)
  have hlast := List.getLast?_eq_some_getLast hne
  have hmem := List.mem_filter.mp (List.getLast_mem hne)
  exact ⟨_, hlast, hmem.1, of_decide_eq_true hmem.2⟩

section latest

variable {c : StoreClient} {T : List (Row ι β)} {ws : List (StoreWrite ι β)}

/-- The last write under an `idx` is the row under it. -/
theorem LatestCurrent.mem_iff (h : LatestCurrent c T ws) {i : ι} {w : StoreWrite ι β}
    (hw : w ∈ lastWrite i ws) (r : Row ι β) : r ∈ current c T ∧ r.idx = i ↔ r = w.row c := by
  have hrows := h i w hw
  rw [← List.mem_singleton (a := r) (b := w.row c), ← hrows, List.mem_filter, decide_eq_true_iff]

/-- The rows of writes have different `idx`. -/
theorem LatestCurrent.nodup (h : LatestCurrent c T ws)
    (hrows : ∀ r ∈ current c T, ∃ w ∈ ws, w.idx = r.idx) : ((current c T).map Row.idx).Nodup := by
  rw [List.nodup_iff_count_le_one]
  intro i
  by_cases hi : i ∈ (current c T).map Row.idx
  · obtain ⟨r, hr, rfl⟩ := List.mem_map.mp hi
    obtain ⟨w, hw, hidx⟩ := hrows r hr
    obtain ⟨v, hv, -⟩ := exists_lastWrite hw
    have hone := congrArg List.length (h r.idx v (hidx ▸ hv))
    rw [← List.countP_eq_length_filter] at hone
    rw [List.count, List.countP_map]
    refine le_of_eq (Eq.trans ?_ hone)
    apply List.countP_congr
    intro r' _
    simp
  · exact (List.count_eq_zero_of_not_mem hi).trans_le zero_le_one

end latest

/-! ## Sequences of writes -/

/-- **Store versioning, exactly.**  After every call of a sequence the newest row under
each `idx` written so far is the only current one, if and only if the rows are flagged
and visible to the client and the times of the writes under one `idx` print in order. -/
theorem latestCurrent_iff (c : StoreClient) (T : List (Row ι β)) (hT : current c T = [])
    (ws : List (StoreWrite ι β)) :
    (∀ pre, pre <+: ws → LatestCurrent c (storeWrites c T pre) pre) ↔
      PrintedInOrder c ws := by
  induction ws using List.reverseRecOn with
  | nil =>
    constructor
    · intro _
      exact ⟨by simp, List.Pairwise.nil⟩
    · intro _ pre hpre i w hw
      rw [List.prefix_nil.mp hpre] at hw
      simp [lastWrite] at hw
  | append_singleton ws w ih =>
    have hprefixes : (∀ pre, pre <+: ws ++ [w] → LatestCurrent c (storeWrites c T pre) pre) ↔
        (∀ pre, pre <+: ws → LatestCurrent c (storeWrites c T pre) pre) ∧
          LatestCurrent c (storeWrites c T (ws ++ [w])) (ws ++ [w]) := by
      simp only [List.prefix_concat_iff]
      constructor
      · intro hall
        exact ⟨fun pre hpre => hall pre (Or.inr hpre), hall _ (Or.inl rfl)⟩
      · rintro ⟨hbefore, hnow⟩ pre (rfl | hpre)
        · exact hnow
        · exact hbefore pre hpre
    have horder : PrintedInOrder c (ws ++ [w]) ↔ PrintedInOrder c ws ∧
        (c.owns (storeKey c w.now) = true ∧ w.state ≠ 0) ∧
          ∀ w' ∈ ws, w'.idx = w.idx → w'.now.PrintsBefore w.now := by
      simp only [PrintedInOrder, List.mem_append, List.mem_singleton, List.pairwise_append,
        List.pairwise_singleton, or_imp, forall_and, forall_eq]
      tauto
    rw [hprefixes, horder, ih]
    apply and_congr_right
    intro hws
    rw [latestCurrent_concat_iff hT (ih.mpr hws ws (List.prefix_refl ws)) w,
      printsBefore_last_iff hws w]

/-- Two writes under `a` within one second, the microseconds being `u` and `v`. -/
def twoWrites (u v : ℤ) : List (StoreWrite Text Unit) :=
  [{ now := { sec := 1400000000, usec := u }, idx := lit "a", blob := (), state := 1 },
   { now := { sec := 1400000000, usec := v }, idx := lit "a", blob := (), state := 1 }]

/-- Writes 10 and 11 microseconds into a second are versioned. -/
theorem latestCurrent_twoWrites :
    LatestCurrent (storeOpen (lit "bob") (byteOf 'm'))
      (storeWrites (storeOpen (lit "bob") (byteOf 'm')) [] (twoWrites 10 11))
      (twoWrites 10 11) :=
  (latestCurrent_iff _ [] rfl _).mpr ⟨by decide, by decide⟩ _ (List.prefix_refl _)

/-- Writes 9 and 10 microseconds into a second are not: both rows stay current. -/
theorem not_latestCurrent_twoWrites :
    ¬ ∀ pre, pre <+: twoWrites 9 10 →
      LatestCurrent (storeOpen (lit "bob") (byteOf 'm'))
        (storeWrites (storeOpen (lit "bob") (byteOf 'm')) [] pre) pre := by
  intro h
  have hlast := h (twoWrites 9 10) (List.prefix_refl _) (lit "a")
    { now := { sec := 1400000000, usec := 10 }, idx := lit "a", blob := (), state := 1 } rfl
  exact absurd hlast (by decide)
