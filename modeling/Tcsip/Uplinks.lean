/-
# Uplinks and what is told about them

`tcuplinks.c` is given the contacts of the registration again and again, and tells its
handler what changed: 1 for a new uplink, 2 for one that was there before, 0 for one that
is gone.  Both lists are kept in tables of 16 buckets by the hash of the uri, and
whether an uplink is in the other table is asked by a lookup whose handler `apply_find`
accepts whatever it meets.  So an uplink counts as present as soon as *any* uri of
the other list shares its bucket, and the events are right exactly when no uplink that
comes or goes meets another one there (`described_iff`).

Without a handler nothing is told of an uplink that comes, but NULL is called for one that goes
(`unobserved_iff`).
-/
import Tcsip.Buckets
import Tcsip.CText

open Buckets

/-! ## The tables -/

/-- `struct uplink`. -/
structure Uplink where
  uri : Text
  ok : Bool
  deriving DecidableEq

/-- `tolower` of a character; those of a uri are ASCII, so the sign of `char` is no matter. -/
def tolower (c : CChar) : UInt32 :=
  let b := c.1.1
  UInt32.ofNat (if 65 ≤ b ∧ b ≤ 90 then b + 32 else b)

/-- `hash_joaat_ci`. -/
def hashJoaatCi (str : Text) : UInt32 :=
  let hash := str.foldl (fun (hash : UInt32) c =>
    let hash := hash + tolower c
    let hash := hash + (hash <<< 10)
    hash ^^^ (hash >>> 6)) 0
  let hash := hash + (hash <<< 3)
  let hash := hash ^^^ (hash >>> 11)
  hash + (hash <<< 15)

/-- The bucket of an uplink, `key & (16 - 1)`. -/
def Uplink.slot (up : Uplink) : Fin 16 := Fin.ofNat 16 (hashJoaatCi up.uri &&& 15).toNat

/-- What the handler is told: an uplink and an operation. -/
abbrev UplinkEvent := Uplink × ℕ

/-- `struct tcuplinks`; `upH` says whether a handler is installed.  There is a table `urisC` only
during an update. -/
structure Tcuplinks where
  dataC : Option (Table 16 Uplink)
  urisC : Option (Table 16 Uplink)
  upH : Bool

/-- `tcuplinks_alloc`, and then `tcuplinks_handler`. -/
def tcuplinksAlloc (upH : Bool) : Tcuplinks := { dataC := none, urisC := none, upH := upH }

/-- `apply_find`. -/
def applyFind (_ : Uplink) : Bool := true

/-- `one_add`, and the events it makes. -/
def oneAdd (ups : Tcuplinks) (up : Uplink) : Tcuplinks × List UplinkEvent :=
  let found := ups.dataC.bind fun dataC => lookup dataC up.slot applyFind
  let ups := { ups with urisC := ups.urisC.map fun urisC => append urisC up.slot up }
  if ups.upH then (ups, [(up, if found.isSome then 2 else 1)]) else (ups, [])

/-- `one_rm`: the event it makes, if any.  Without a handler it calls NULL. -/
def oneRm (ups : Tcuplinks) (up : Uplink) : Option (List UplinkEvent) :=
  let found := ups.urisC.bind fun urisC => lookup urisC up.slot applyFind
  if found.isSome then some []
  else if ups.upH then some [(up, 0)] else none

/-- `list_apply` with `apply_add`. -/
def applyAdd (ups : Tcuplinks) : List Uplink → Tcuplinks × List UplinkEvent
  | [] => (ups, [])
  | up :: upl =>
    let first := oneAdd ups up
    let rest := applyAdd first.1 upl
    (rest.1, first.2 ++ rest.2)

/-- `hash_apply` with `apply_rm`. -/
def applyRm (ups : Tcuplinks) : List Uplink → Option (List UplinkEvent)
  | [] => some []
  | up :: upl => do
    let first ← oneRm ups up
    let rest ← applyRm ups upl
    some (first ++ rest)

/-- `uplink_upd`, and the events in the order they are told. -/
def uplinkUpd (ups : Tcuplinks) (upl : List Uplink) : Option (Tcuplinks × List UplinkEvent) := do
  let added := applyAdd { ups with urisC := some empty } upl
  let removed ← match ups.dataC with
    | some dataC => applyRm added.1 (elems dataC)
    | none => some []
  some ({ dataC := added.1.urisC, urisC := none, upH := ups.upH }, added.2 ++ removed)

/-! ## What an update tells -/

/-- An uplink of the list `l` lies in the bucket of `up`. -/
def SharesBucket (l : List Uplink) (up : Uplink) : Prop := ∃ v ∈ l, v.slot = up.slot

instance (l : List Uplink) (up : Uplink) : Decidable (SharesBucket l up) :=
  inferInstanceAs (Decidable (∃ v ∈ l, _))

/-- The events told of an uplink of the new list. -/
def tellAdded (prev : List Uplink) (up : Uplink) : UplinkEvent :=
  (up, if SharesBucket prev up then 2 else 1)

/-- The events of an update from `prev` to `l`. -/
def updEvents (prev l : List Uplink) : List UplinkEvent :=
  l.map (tellAdded prev) ++
    ((elems (ofList Uplink.slot prev)).filter fun up => ¬ SharesBucket l up).map fun up => (up, 0)

/-- The object after it was told the list `prev`. -/
def uplinksHolding (prev : List Uplink) : Tcuplinks :=
  { dataC := some (ofList Uplink.slot prev), urisC := none, upH := true }

theorem found_iff (prev : List Uplink) (up : Uplink) :
    (lookup (ofList Uplink.slot prev) up.slot applyFind).isSome = true ↔ SharesBucket prev up :=
  isSome_lookup_ofList Uplink.slot prev up.slot

/-- What the additions do: the new table is filled, and a handler is told which of its uplinks
meet one of the old table. -/
theorem applyAdd_table (dataC : Option (Table 16 Uplink)) (upH : Bool) (l : List Uplink)
    (t : Table 16 Uplink) :
    applyAdd { dataC := dataC, urisC := some t, upH := upH } l
      = ({ dataC := dataC, urisC := some (l.foldl (fun t a => append t a.slot a) t), upH := upH },
         if upH then l.map fun up =>
           (up, if (dataC.bind fun dataC => lookup dataC up.slot applyFind).isSome then 2 else 1)
         else []) := by
  induction l generalizing t with
  | nil => cases upH <;> rfl
  | cons up l ih =>
      unfold applyAdd oneAdd
      dsimp only
      cases upH with
      | true =>
          rw [if_pos rfl, Option.map_some, ih]
          rfl
      | false =>
          rw [if_neg Bool.false_ne_true, Option.map_some, ih]
          rfl

/-- What the additions tell. -/
theorem applyAdd_eq (prev l : List Uplink) (t : Table 16 Uplink) :
    applyAdd { dataC := some (ofList Uplink.slot prev), urisC := some t, upH := true } l
      = ({ dataC := some (ofList Uplink.slot prev),
           urisC := some (l.foldl (fun t a => append t a.slot a) t), upH := true },
         l.map (tellAdded prev)) := by
  rw [applyAdd_table, if_pos rfl]
  congr 1
  apply List.map_congr_left
  intro up _
  rw [Option.bind_some, tellAdded]
  by_cases h : SharesBucket prev up
  · rw [if_pos ((found_iff prev up).mpr h), if_pos h]
  · rw [if_neg (mt (found_iff prev up).mp h), if_neg h]

/-- What the additions tell the first time. -/
theorem applyAdd_first (l : List Uplink) (t : Table 16 Uplink) :
    applyAdd { dataC := none, urisC := some t, upH := true } l
      = ({ dataC := none, urisC := some (l.foldl (fun t a => append t a.slot a) t), upH := true },
         l.map fun up => (up, 1)) := by
  rw [applyAdd_table, if_pos rfl]
  rfl

/-- What the removals do. -/
theorem applyRm_eq (l : List Uplink) (dataC : Option (Table 16 Uplink)) (gone : List Uplink) :
    applyRm { dataC := dataC, urisC := some (ofList Uplink.slot l), upH := true } gone
      = some ((gone.filter fun up => ¬ SharesBucket l up).map fun up => (up, 0)) := by
  induction gone with
  | nil => rfl
  | cons up gone ih =>
      unfold applyRm oneRm
      dsimp only
      rw [ih, Option.bind_some]
      by_cases h : SharesBucket l up
      · rw [if_pos ((found_iff l up).mpr h), List.filter_cons_of_neg (by simpa using h)]
        rfl
      · rw [if_neg (mt (found_iff l up).mp h), List.filter_cons_of_pos (by simpa using h)]
        rfl

/-- Without a handler the removals return exactly if there are none. -/
theorem applyRm_quiet (l : List Uplink) (dataC : Option (Table 16 Uplink)) (gone : List Uplink) :
    applyRm { dataC := dataC, urisC := some (ofList Uplink.slot l), upH := false } gone
      = if ∀ up ∈ gone, SharesBucket l up then some [] else none := by
  induction gone with
  | nil => rfl
  | cons up gone ih =>
      unfold applyRm oneRm
      dsimp only
      rw [ih, Option.bind_some]
      by_cases h : SharesBucket l up
      · rw [if_pos ((found_iff l up).mpr h)]
        by_cases hgone : ∀ v ∈ gone, SharesBucket l v
        · rw [if_pos hgone, if_pos (List.forall_mem_cons.mpr ⟨h, hgone⟩)]
          rfl
        · rw [if_neg hgone, if_neg (mt (fun hall => (List.forall_mem_cons.mp hall).2) hgone)]
          rfl
      · rw [if_neg (mt (found_iff l up).mp h),
          if_neg (mt (fun hall => (List.forall_mem_cons.mp hall).1) h)]
        rfl

/-- **An update.** -/
theorem uplinkUpd_holding (prev l : List Uplink) :
    uplinkUpd (uplinksHolding prev) l = some (uplinksHolding l, updEvents prev l) := by
  unfold uplinkUpd uplinksHolding
  dsimp only
  rw [applyAdd_eq]
  show (applyRm { dataC := _, urisC := some (ofList Uplink.slot l), upH := true } _).bind _ = _
  rw [applyRm_eq]
  rfl

/-- The first update. -/
theorem uplinkUpd_first (l : List Uplink) :
    uplinkUpd (tcuplinksAlloc true) l = some (uplinksHolding l, updEvents [] l) := by
  unfold uplinkUpd tcuplinksAlloc
  dsimp only
  rw [applyAdd_first]
  have hadded : tellAdded [] = fun up => (up, 1) := by
    funext up
    unfold tellAdded
    rw [if_neg (by simp [SharesBucket])]
  have hempty : elems (ofList Uplink.slot []) = [] := rfl
  unfold updEvents
  rw [hadded, hempty]
  rfl

/-! ## What an update should tell -/

/-- The uris of a list. -/
def uris (l : List Uplink) : List Text := l.map Uplink.uri

/-- The event for an uplink of the new list: 2 if the previous list had its uri. -/
def dueAdded (prev : List Uplink) (up : Uplink) : UplinkEvent :=
  (up, if up.uri ∈ uris prev then 2 else 1)

/-- The events that describe the change: 1 and 2 for the new list, and 0 for what the
previous list had and the new one has not. -/
def dueEvents (prev l : List Uplink) : List UplinkEvent :=
  l.map (dueAdded prev) ++ (prev.filter fun up => up.uri ∉ uris l).map fun up => (up, 0)

/-- No uplink that comes meets one of the previous list, and no uplink that goes meets one
of the new list. -/
def UplinksApart (prev l : List Uplink) : Prop :=
  (∀ up ∈ l, up.uri ∉ uris prev → ¬ SharesBucket prev up) ∧
    ∀ up ∈ prev, up.uri ∉ uris l → ¬ SharesBucket l up

instance (prev l : List Uplink) : Decidable (UplinksApart prev l) :=
  inferInstanceAs (Decidable (_ ∧ _))

/-- The bucket of an uplink depends on its uri only. -/
theorem sharesBucket_of_mem_uris {l : List Uplink} {up : Uplink} (h : up.uri ∈ uris l) :
    SharesBucket l up := by
  obtain ⟨v, hv, huri⟩ := List.mem_map.mp h
  refine ⟨v, hv, ?_⟩
  unfold Uplink.slot
  rw [huri]

/-- When the lists are apart, to meet is to be there. -/
theorem UplinksApart.sharesBucket_iff {prev l : List Uplink} (h : UplinksApart prev l) :
    (∀ up ∈ l, (SharesBucket prev up ↔ up.uri ∈ uris prev)) ∧
      ∀ up ∈ prev, (SharesBucket l up ↔ up.uri ∈ uris l) := by
  constructor
  · intro up hup
    refine ⟨fun hmeets => ?_, sharesBucket_of_mem_uris⟩
    by_contra hnot
    exact h.1 up hup hnot hmeets
  · intro up hup
    refine ⟨fun hmeets => ?_, sharesBucket_of_mem_uris⟩
    by_contra hnot
    exact h.2 up hup hnot hmeets

/-- An uplink that comes and meets another one is told as an update. -/
theorem uplinksApart_of_told_added {prev l : List Uplink}
    (hperm : (updEvents prev l).Perm (dueEvents prev l)) :
    ∀ up ∈ l, up.uri ∉ uris prev → ¬ SharesBucket prev up := by
  intro up hup hnew hmeets
  have hmem : (up, 2) ∈ updEvents prev l := by
    refine List.mem_append_left _ (List.mem_map.mpr ⟨up, hup, ?_⟩)
    unfold tellAdded
    rw [if_pos hmeets]
  rcases List.mem_append.mp (hperm.mem_iff.mp hmem) with hdue | hdue
  · obtain ⟨v, _, hv⟩ := List.mem_map.mp hdue
    unfold dueAdded at hv
    obtain ⟨rfl, hop⟩ := Prod.mk.inj hv
    rw [if_neg hnew] at hop
    exact absurd hop (by decide)
  · obtain ⟨v, _, hv⟩ := List.mem_map.mp hdue
    exact absurd (Prod.mk.inj hv).2 (by decide)

/-- An uplink that goes and meets another one is not told as gone. -/
theorem uplinksApart_of_told_gone {prev l : List Uplink}
    (hperm : (updEvents prev l).Perm (dueEvents prev l)) :
    ∀ up ∈ prev, up.uri ∉ uris l → ¬ SharesBucket l up := by
  intro up hup hgone hmeets
  have hmem : (up, 0) ∈ dueEvents prev l := by
    refine List.mem_append_right _ (List.mem_map.mpr ⟨up, ?_, rfl⟩)
    exact List.mem_filter.mpr ⟨hup, by simpa using hgone⟩
  rcases List.mem_append.mp (hperm.mem_iff.mpr hmem) with htold | htold
  · obtain ⟨v, _, hv⟩ := List.mem_map.mp htold
    unfold tellAdded at hv
    have hop := (Prod.mk.inj hv).2
    split at hop <;> exact absurd hop (by decide)
  · obtain ⟨v, hv, heq⟩ := List.mem_map.mp htold
    obtain rfl := (Prod.mk.inj heq).1
    have hnot := (List.mem_filter.mp hv).2
    exact (of_decide_eq_true hnot) hmeets

/-- Between lists that are apart, an update tells the change. -/
theorem UplinksApart.updEvents_perm {prev l : List Uplink} (h : UplinksApart prev l) :
    (updEvents prev l).Perm (dueEvents prev l) := by
  obtain ⟨hadded, hgone⟩ := h.sharesBucket_iff
  unfold updEvents dueEvents
  have hsame : l.map (tellAdded prev) = l.map (dueAdded prev) := by
    apply List.map_congr_left
    intro up hup
    unfold tellAdded dueAdded
    simp only [hadded up hup]
  rw [hsame]
  refine List.Perm.append_left _ (List.Perm.map _ ?_)
  refine ((elems_ofList_perm Uplink.slot prev).filter _).trans (List.Perm.of_eq ?_)
  apply List.filter_congr
  intro up hup
  simp only [hgone up hup]

/-- **One update** tells the change exactly when the two lists are apart. -/
theorem updEvents_perm_iff (prev l : List Uplink) :
    (updEvents prev l).Perm (dueEvents prev l) ↔ UplinksApart prev l :=
  ⟨fun hperm => ⟨uplinksApart_of_told_added hperm, uplinksApart_of_told_gone hperm⟩,
    UplinksApart.updEvents_perm⟩

/-! ## An observer -/

/-- What an observer that keeps a list does with an event. -/
def observe (obs : List Uplink) : UplinkEvent → List Uplink
  | (up, 0) => obs.filter fun v => v.uri ≠ up.uri
  | (up, 1) => obs ++ [up]
  | (up, _) => obs.map fun v => if v.uri = up.uri then up else v

/-- The observer's list after a series of events. -/
def observeAll (obs : List Uplink) (evs : List UplinkEvent) : List Uplink :=
  evs.foldl observe obs

/-- An uplink takes the place of the one with its uri. -/
theorem observe_update {obs : List Uplink} {up : Uplink} (h : up.uri ∈ uris obs) :
    uris (observe obs (up, 2)) = uris obs ∧
      ∀ v, v ∈ observe obs (up, 2) ↔ v = up ∨ v ∈ obs ∧ v.uri ≠ up.uri := by
  show uris (obs.map fun v => if v.uri = up.uri then up else v) = uris obs ∧
    ∀ v, v ∈ (obs.map fun v => if v.uri = up.uri then up else v) ↔ _
  constructor
  · unfold uris
    rw [List.map_map]
    apply List.map_congr_left
    intro v _
    by_cases hv : v.uri = up.uri <;> simp [hv]
  · intro v
    rw [List.mem_map]
    constructor
    · rintro ⟨w, hw, rfl⟩
      by_cases hwu : w.uri = up.uri
      · exact Or.inl (if_pos hwu)
      · rw [if_neg hwu]
        exact Or.inr ⟨hw, hwu⟩
    · rintro (rfl | ⟨hv, hne⟩)
      · obtain ⟨w, hw, huri⟩ := List.mem_map.mp h
        exact ⟨w, hw, if_pos huri⟩
      · exact ⟨v, hv, if_neg hne⟩

/-- An uplink with a new uri is put at the end. -/
theorem observe_new {obs : List Uplink} (hobs : (uris obs).Nodup) {up : Uplink}
    (h : up.uri ∉ uris obs) :
    (uris (observe obs (up, 1))).Nodup ∧
      ∀ v, v ∈ observe obs (up, 1) ↔ v = up ∨ v ∈ obs ∧ v.uri ≠ up.uri := by
  show (uris (obs ++ [up])).Nodup ∧ ∀ v, v ∈ obs ++ [up] ↔ _
  have hne : ∀ v ∈ obs, v.uri ≠ up.uri := fun v hv heq => h (heq ▸ List.mem_map_of_mem hv)
  constructor
  · unfold uris
    rw [List.map_append, List.map_singleton]
    refine List.nodup_append.mpr ⟨hobs, List.nodup_singleton _, ?_⟩
    rintro u hu w hw rfl
    rw [List.mem_singleton] at hw
    exact h (hw ▸ hu)
  · intro v
    rw [List.mem_append, List.mem_singleton]
    constructor
    · rintro (hv | hv)
      · exact Or.inr ⟨hv, hne v hv⟩
      · exact Or.inl hv
    · rintro (hv | ⟨hv, _⟩)
      · exact Or.inr hv
      · exact Or.inl hv

/-- An event for an uplink of the new list puts it in, in place of what had its uri. -/
theorem observe_dueAdded {obs : List Uplink} (hobs : (uris obs).Nodup) (up : Uplink) :
    (uris (observe obs (dueAdded obs up))).Nodup ∧
      ∀ v, v ∈ observe obs (dueAdded obs up) ↔ v = up ∨ v ∈ obs ∧ v.uri ≠ up.uri := by
  unfold dueAdded
  by_cases h : up.uri ∈ uris obs
  · rw [if_pos h]
    obtain ⟨huris, hmem⟩ := observe_update h
    exact ⟨huris.symm ▸ hobs, hmem⟩
  · rw [if_neg h]
    exact observe_new hobs h

/-- Such an event leaves the other uris as they are. -/
theorem mem_uris_observe {obs : List Uplink} (hobs : (uris obs).Nodup) {up w : Uplink}
    (hne : w.uri ≠ up.uri) : w.uri ∈ uris (observe obs (dueAdded obs up)) ↔ w.uri ∈ uris obs := by
  obtain ⟨-, hmem⟩ := observe_dueAdded hobs up
  unfold uris
  rw [List.mem_map, List.mem_map]
  constructor
  · rintro ⟨v, hv, heq⟩
    rcases (hmem v).mp hv with rfl | ⟨hv, _⟩
    · exact absurd heq.symm hne
    · exact ⟨v, hv, heq⟩
  · rintro ⟨v, hv, heq⟩
    exact ⟨v, (hmem v).mpr (Or.inr ⟨hv, by rw [heq]; exact hne⟩), heq⟩

/-- The events for the new list put it in, in place of what had its uris. -/
theorem observeAll_dueAdded {l : List Uplink} (hl : (uris l).Nodup) {obs : List Uplink}
    (hobs : (uris obs).Nodup) {told : Uplink → UplinkEvent}
    (htold : ∀ up ∈ l, told up = dueAdded obs up) :
    (uris (observeAll obs (l.map told))).Nodup ∧
      ∀ v, v ∈ observeAll obs (l.map told) ↔ v ∈ l ∨ v ∈ obs ∧ v.uri ∉ uris l := by
  induction l generalizing obs with
  | nil => exact ⟨hobs, by simp [observeAll, uris]⟩
  | cons up l ih =>
      rw [uris, List.map_cons, List.nodup_cons] at hl
      obtain ⟨hnd, hmem⟩ := observe_dueAdded hobs up
      -- the uris still to come are in the observer's list if they were before
      have hlater : ∀ w ∈ l, told w = dueAdded (observe obs (dueAdded obs up)) w := by
        intro w hw
        rw [htold w (List.mem_cons_of_mem up hw)]
        have hne : w.uri ≠ up.uri := by
          intro heq
          exact hl.1 (heq ▸ List.mem_map_of_mem hw)
        have huri := mem_uris_observe hobs hne
        unfold dueAdded at huri ⊢
        simp only [huri]
      have hstep : observeAll obs ((up :: l).map told)
          = observeAll (observe obs (dueAdded obs up)) (l.map told) := by
        rw [List.map_cons, htold up List.mem_cons_self]
        rfl
      rw [hstep]
      obtain ⟨hnd', hmem'⟩ := ih hl.2 hnd hlater
      refine ⟨hnd', ?_⟩
      intro v
      have hcons : uris (up :: l) = up.uri :: uris l := rfl
      rw [hmem', hmem, hcons, List.mem_cons, List.mem_cons]
      constructor
      · rintro (hv | ⟨rfl | ⟨hv, hne⟩, hnot⟩)
        · exact Or.inl (Or.inr hv)
        · exact Or.inl (Or.inl rfl)
        · refine Or.inr ⟨hv, ?_⟩
          rintro (heq | hin)
          · exact hne heq
          · exact hnot hin
      · rintro ((rfl | hv) | ⟨hv, hnot⟩)
        · exact Or.inr ⟨Or.inl rfl, hl.1⟩
        · exact Or.inl hv
        · exact Or.inr ⟨Or.inr ⟨hv, fun heq => hnot (Or.inl heq)⟩, fun hin => hnot (Or.inr hin)⟩

/-- The events for what is gone take it out. -/
theorem observeAll_gone (gone obs : List Uplink) :
    observeAll obs (gone.map fun up => (up, 0)) = obs.filter fun v => v.uri ∉ uris gone := by
  induction gone generalizing obs with
  | nil => simp [observeAll, uris]
  | cons up gone ih =>
      show observeAll (obs.filter fun v => v.uri ≠ up.uri) (gone.map fun up => (up, 0)) = _
      rw [ih, List.filter_filter]
      apply List.filter_congr
      intro v _
      rw [Bool.eq_iff_iff, Bool.and_eq_true, decide_eq_true_eq]
      simp only [uris, List.map_cons, List.mem_cons, decide_eq_true_eq, not_or]
      exact and_comm

/-- What is told as gone are the uris that the new list does not have. -/
theorem mem_uris_gone {prev l : List Uplink}
    (hgone : ∀ up ∈ prev, (SharesBucket l up ↔ up.uri ∈ uris l)) (u : Text) :
    u ∈ uris ((elems (ofList Uplink.slot prev)).filter fun up => ¬ SharesBucket l up)
      ↔ u ∈ uris prev ∧ u ∉ uris l := by
  unfold uris
  rw [List.mem_map]
  constructor
  · rintro ⟨v, hv, rfl⟩
    obtain ⟨hv, hnot⟩ := List.mem_filter.mp hv
    have hv' : v ∈ prev := (elems_ofList_perm Uplink.slot prev).mem_iff.mp hv
    exact ⟨List.mem_map_of_mem hv', mt (hgone v hv').mpr (of_decide_eq_true hnot)⟩
  · rintro ⟨hu, hnot⟩
    obtain ⟨v, hv, rfl⟩ := List.mem_map.mp hu
    refine ⟨v, List.mem_filter.mpr ⟨?_, decide_eq_true (mt (hgone v hv).mp hnot)⟩, rfl⟩
    exact (elems_ofList_perm Uplink.slot prev).mem_iff.mpr hv

/-- **The observer holds the new list** after an update that tells the change. -/
theorem observeAll_perm {prev l obs : List Uplink} (hl : (uris l).Nodup)
    (hprev : (uris prev).Nodup) (hobs : obs.Perm prev) (h : UplinksApart prev l) :
    (observeAll obs (updEvents prev l)).Perm l := by
  obtain ⟨hadded, hgone⟩ := h.sharesBucket_iff
  have huris : ∀ u, u ∈ uris obs ↔ u ∈ uris prev := fun u => (hobs.map Uplink.uri).mem_iff
  have hobsnd : (uris obs).Nodup := (hobs.map Uplink.uri).nodup_iff.mpr hprev
  have htold : ∀ up ∈ l, tellAdded prev up = dueAdded obs up := by
    intro up hup
    unfold tellAdded dueAdded
    simp only [hadded up hup, huris]
  obtain ⟨hnd, hmem⟩ := observeAll_dueAdded hl hobsnd htold
  -- the removals come after all additions
  have hsplit : observeAll obs (updEvents prev l)
      = (observeAll obs (l.map (tellAdded prev))).filter fun v =>
        v.uri ∉ uris ((elems (ofList Uplink.slot prev)).filter fun up => ¬ SharesBucket l up) := by
    rw [← observeAll_gone]
    exact List.foldl_append
  rw [hsplit]
  refine (List.perm_ext_iff_of_nodup (hnd.of_map.filter _) hl.of_map).mpr ?_
  intro v
  rw [List.mem_filter, hmem, decide_eq_true_eq, mem_uris_gone hgone]
  constructor
  · rintro ⟨hv | ⟨hv, hnot⟩, hkept⟩
    · exact hv
    · exact absurd ⟨(huris v.uri).mp (List.mem_map_of_mem hv), hnot⟩ hkept
  · intro hv
    exact ⟨Or.inl hv, fun hgone => hgone.2 (List.mem_map_of_mem hv)⟩

/-! ## Sequences of updates -/

/-- Every update of a sequence tells the change from the previous list, and then the
observer holds the last list. -/
def UplinksDescribed : Tcuplinks → List Uplink → List Uplink → List (List Uplink) → Prop
  | _, _, _, [] => True
  | ups, prev, obs, l :: ls => ∃ next evs, uplinkUpd ups l = some (next, evs) ∧
      evs.Perm (dueEvents prev l) ∧ (observeAll obs evs).Perm l ∧
      UplinksDescribed next l (observeAll obs evs) ls

/-- Any two lists in a row are apart. -/
def AllUplinksApart (prev : List Uplink) (ls : List (List Uplink)) : Prop :=
  (prev :: ls).IsChain UplinksApart

/-- The step of the induction: an update that is told as `updEvents`. -/
theorem uplinksDescribed_cons_iff {ups : Tcuplinks} {prev obs l : List Uplink}
    {ls : List (List Uplink)} (hupd : uplinkUpd ups l = some (uplinksHolding l, updEvents prev l))
    (hl : (uris l).Nodup) (hprev : (uris prev).Nodup) (hobs : obs.Perm prev) :
    UplinksDescribed ups prev obs (l :: ls) ↔ UplinksApart prev l ∧
      UplinksDescribed (uplinksHolding l) l (observeAll obs (updEvents prev l)) ls := by
  constructor
  · rintro ⟨next, evs, heq, hdue, _, hrest⟩
    rw [hupd] at heq
    obtain ⟨rfl, rfl⟩ := Prod.mk.inj (Option.some.inj heq)
    exact ⟨(updEvents_perm_iff prev l).mp hdue, hrest⟩
  · rintro ⟨hapart, hrest⟩
    exact ⟨_, _, hupd, (updEvents_perm_iff prev l).mpr hapart,
      observeAll_perm hl hprev hobs hapart, hrest⟩

theorem uplinksDescribed_holding_iff {prev obs : List Uplink} {ls : List (List Uplink)}
    (hls : ∀ l ∈ ls, (uris l).Nodup) (hprev : (uris prev).Nodup) (hobs : obs.Perm prev) :
    UplinksDescribed (uplinksHolding prev) prev obs ls ↔ AllUplinksApart prev ls := by
  unfold AllUplinksApart
  induction ls generalizing prev obs with
  | nil => simp [UplinksDescribed]
  | cons l ls ih =>
      rw [List.forall_mem_cons] at hls
      rw [uplinksDescribed_cons_iff (uplinkUpd_holding prev l) hls.1 hprev hobs,
        List.isChain_cons_cons]
      apply and_congr_right
      intro hapart
      exact ih hls.2 hls.1 (observeAll_perm hls.1 hprev hobs hapart)

/-- **Uplink events, exactly.**  Over any sequence of lists with distinct uris, every update
tells precisely the change and the observer always holds the last list, if and only if
any two lists in a row are apart. -/
theorem described_iff (ls : List (List Uplink)) (hls : ∀ l ∈ ls, (uris l).Nodup) :
    UplinksDescribed (tcuplinksAlloc true) [] [] ls ↔ AllUplinksApart [] ls := by
  cases ls with
  | nil => simp [UplinksDescribed, AllUplinksApart]
  | cons l ls =>
      rw [List.forall_mem_cons] at hls
      rw [uplinksDescribed_cons_iff (uplinkUpd_first l) hls.1 List.nodup_nil (List.Perm.refl _),
        AllUplinksApart, List.isChain_cons_cons]
      apply and_congr_right
      intro hapart
      exact uplinksDescribed_holding_iff hls.2 hls.1
        (observeAll_perm hls.1 List.nodup_nil (List.Perm.refl _) hapart)

/-- The uplink of a user of the service. -/
def uplinkOf (user : String) : Uplink :=
  { uri := lit "sip:" ++ lit user ++ lit "@texr.net", ok := true }

/-- One uplink replaces another one. -/
def replacing (u v : String) : List (List Uplink) := [[uplinkOf u], [uplinkOf v]]

/-- Alice and bob are in different buckets. -/
theorem described_alice_bob :
    UplinksDescribed (tcuplinksAlloc true) [] [] (replacing "alice" "bob") :=
  (described_iff (replacing "alice" "bob") (by decide)).mpr (by unfold AllUplinksApart; decide)

/-- Dave and grace share a bucket: the change from one to the other is told as an update of
grace, and the observer goes on holding dave. -/
theorem not_described_dave_grace :
    ¬ UplinksDescribed (tcuplinksAlloc true) [] [] (replacing "dave" "grace") := by
  rintro ⟨_, _, hfirst, _, _, _, _, hsecond, hdue, _⟩
  rw [uplinkUpd_first] at hfirst
  obtain ⟨rfl, rfl⟩ := Prod.mk.inj (Option.some.inj hfirst)
  rw [uplinkUpd_holding] at hsecond
  obtain ⟨rfl, rfl⟩ := Prod.mk.inj (Option.some.inj hsecond)
  exact absurd hdue (by decide)

/-! ## Without a handler -/

/-- The object without a handler after it was told the list `prev`. -/
def uplinksQuiet (prev : List Uplink) : Tcuplinks :=
  { dataC := some (ofList Uplink.slot prev), urisC := none, upH := false }

/-- Each uplink of the list `prev` meets one of the list `l`. -/
def BucketsCovered (prev l : List Uplink) : Prop := ∀ up ∈ prev, SharesBucket l up

instance (prev l : List Uplink) : Decidable (BucketsCovered prev l) :=
  inferInstanceAs (Decidable (∀ up ∈ prev, _))

theorem uplinkUpd_quiet (prev l : List Uplink) :
    uplinkUpd (uplinksQuiet prev) l =
      if BucketsCovered prev l then some (uplinksQuiet l, []) else none := by
  have hold : (∀ up ∈ elems (ofList Uplink.slot prev), SharesBucket l up) ↔ BucketsCovered prev l :=
    forall_congr' fun up => imp_congr_left (elems_ofList_perm Uplink.slot prev).mem_iff
  unfold uplinkUpd uplinksQuiet
  dsimp only
  rw [applyAdd_table, if_neg Bool.false_ne_true]
  show (applyRm { dataC := _, urisC := some (ofList Uplink.slot l), upH := false } _).bind _ = _
  rw [applyRm_quiet]
  simp only [hold]
  by_cases h : BucketsCovered prev l
  · rw [if_pos h, if_pos h]
    rfl
  · rw [if_neg h, if_neg h]
    rfl

theorem uplinkUpd_quiet_first (l : List Uplink) :
    uplinkUpd (tcuplinksAlloc false) l = some (uplinksQuiet l, []) := by
  unfold uplinkUpd tcuplinksAlloc
  dsimp only
  rw [applyAdd_table, if_neg Bool.false_ne_true]
  rfl

/-- The table of the object holds the uris of the list, and there is no other table. -/
def HoldsUris (ups : Tcuplinks) (l : List Uplink) : Prop :=
  (∃ dataC, ups.dataC = some dataC ∧ (uris (elems dataC)).Perm (uris l)) ∧ ups.urisC = none

theorem holdsUris_uplinksQuiet (l : List Uplink) : HoldsUris (uplinksQuiet l) l :=
  ⟨⟨_, rfl, (elems_ofList_perm Uplink.slot l).map _⟩, rfl⟩

/-- Every update of a sequence returns without a call, and then the object holds its list. -/
def UplinksUnobserved : Tcuplinks → List (List Uplink) → Prop
  | _, [] => True
  | ups, l :: ls =>
    ∃ next, uplinkUpd ups l = some (next, []) ∧ HoldsUris next l ∧ UplinksUnobserved next ls

theorem uplinksUnobserved_quiet_iff (prev : List Uplink) (ls : List (List Uplink)) :
    UplinksUnobserved (uplinksQuiet prev) ls ↔ (prev :: ls).IsChain BucketsCovered := by
  induction ls generalizing prev with
  | nil => simp [UplinksUnobserved]
  | cons l ls ih =>
      rw [List.isChain_cons_cons, UplinksUnobserved, uplinkUpd_quiet]
      constructor
      · rintro ⟨next, heq, -, hrest⟩
        split_ifs at heq with h
        obtain ⟨rfl, -⟩ := Prod.mk.inj (Option.some.inj heq)
        exact ⟨h, (ih l).mp hrest⟩
      · rintro ⟨h, hrest⟩
        rw [if_pos h]
        exact ⟨uplinksQuiet l, rfl, holdsUris_uplinksQuiet l, (ih l).mpr hrest⟩

/-- **Without a handler** all updates of a sequence go well if and only if in any two lists in a
row the second has an uplink in every bucket that the first one uses. -/
theorem unobserved_iff (ls : List (List Uplink)) :
    UplinksUnobserved (tcuplinksAlloc false) ls ↔ ls.IsChain BucketsCovered := by
  cases ls with
  | nil => simp [UplinksUnobserved]
  | cons l ls =>
      rw [← uplinksUnobserved_quiet_iff, UplinksUnobserved]
      constructor
      · rintro ⟨next, heq, -, hrest⟩
        rw [uplinkUpd_quiet_first] at heq
        obtain ⟨rfl, -⟩ := Prod.mk.inj (Option.some.inj heq)
        exact hrest
      · exact fun hrest =>
          ⟨uplinksQuiet l, uplinkUpd_quiet_first l, holdsUris_uplinksQuiet l, hrest⟩

/-- The only uplink goes, and NULL is called. -/
theorem not_unobserved_gone :
    ¬ UplinksUnobserved (tcuplinksAlloc false) [[uplinkOf "alice"], []] := by
  rintro ⟨_, hfirst, -, _, hsecond, -⟩
  rw [uplinkUpd_quiet_first] at hfirst
  obtain ⟨rfl, -⟩ := Prod.mk.inj (Option.some.inj hfirst)
  rw [uplinkUpd_quiet, if_neg (by decide)] at hsecond
  exact absurd hsecond (by simp)
