/-
# Where `list_slice` cuts

`list_slice` is told to leave the first `limit` elements behind the header it cuts and to put
the others behind a second one (`SlicesAt`).  The elements belong to a third header: the one
they were appended to, of which `http_ct_done` has a copy, or the remainder of earlier cuts.

`do_slice` counts the limit down before it looks whether it is used up, so it cuts one element
too early, and reads the element before the first one when the limit is 1.  It writes the new
ends to the header which the elements belong to: the one that was cut keeps its last element,
and the remainder has the right one only at a first cut (`listSlice_ends`).  A list with
fewer elements than the limit is not cut at all, and only such a list ends up as told
(`slicesAt_iff`).
-/
import Tcsip.Bundles

open LinkedList

namespace Bundles

variable {α : Type} {m : Mem α} {n own orig rp limit : ℕ} {as us vs : List (ℕ × α)}

/-- `list_slice` leaves the first `limit` elements of `as` behind `orig`, and puts the remaining
ones behind `rp`; both are well formed. -/
def SlicesAt (n orig rp limit : ℕ) (as : List (ℕ × α)) (m : Mem α) : Prop :=
  ∃ m' more, listSlice n orig rp limit m = some (m', more) ∧
    (∃ own, IsListOf m' own orig (as.take limit)) ∧ ∃ own, IsListOf m' own rp (as.drop limit)

/-! ## The ends of the two lists -/

/-- **The ends after a cut.**  The list that was cut never gets its new last element, and the
remainder gets the one of the header which the elements belong to. -/
theorem listSlice_ends {a b : ℕ} {x y : α} (horig : orig ≠ own) (hrp : rp ≠ own)
    (hne : orig ≠ rp) (hn : us.length + 1 < n)
    (h : IsListOf m own orig (us ++ (a, x) :: (b, y) :: vs)) :
    ∃ m', listSlice n orig rp (us.length + 2) m = some (m', true) ∧
      ¬ IsListOf m' own orig (us ++ [(a, x)]) ∧
      (IsListOf m' own rp ((b, y) :: vs) ↔ (m.list own).tail = (m.list orig).tail) := by
  obtain ⟨m', hslice, hlist, -, hremainder, hfront, hback⟩ :=
    listSlice_cut horig hrp.symm hne hn h.chain h.nodup
  have hnd : (us.map Prod.fst ++ a :: (((b, y) :: vs).map Prod.fst)).Nodup := by
    have hnd := h.nodup
    rwa [List.map_append] at hnd
  obtain ⟨hnot, hndback⟩ := List.nodup_cons.mp (List.nodup_append.mp hnd).2.1
  have hlast : (m.list orig).tail = ((b, y) :: vs).getLast?.map Prod.fst := by
    rw [h.tail, List.getLast?_append, List.getLast?_cons_cons, List.getLast?_cons]
    rfl
  refine ⟨m', hslice, fun hcut => ?_, fun hrest => ?_, fun htail => ⟨hback, ?_, hndback⟩⟩
  · -- its last element would be one of the remainder
    have ha : ((b, y) :: vs).getLast?.map Prod.fst = some a := by
      rw [← hlast, ← hlist, hcut.tail, List.getLast?_concat]
      rfl
    obtain ⟨⟨c, z⟩, hmem, rfl⟩ := Option.map_eq_some_iff.mp ha
    exact hnot (List.mem_map_of_mem (List.mem_of_getLast? hmem))
  · rw [hlast, ← hrest.tail, hremainder]
  · rw [hremainder, htail, hlast]

/-! ## Where it cuts -/

/-- A list with fewer elements than the limit stays as it is. -/
theorem slicesAt_of_lt (hne : orig ≠ rp) (hn : as.length ≤ n) (hlimit : as.length < limit)
    (h : IsListOf m own orig as) : SlicesAt n orig rp limit as m := by
  refine ⟨_, _, listSlice_of_lt hne hn hlimit h.chain, ⟨own, ?_⟩, own, ?_⟩
  · rw [List.take_of_length_le hlimit.le]
    refine ⟨chain_init hne h.chain, ?_, h.nodup⟩
    rw [Mem.setList_of_ne _ hne]
    exact h.tail
  · rw [List.drop_eq_nil_of_le hlimit.le]
    refine ⟨?_, ?_, List.nodup_nil⟩
    · rw [Mem.setList_self]
      rfl
    · rw [Mem.setList_self]
      rfl

/-- With the limit 1 the element before the first one is missed. -/
theorem not_slicesAt_one (hne : orig ≠ rp) (hn : as.length ≤ n) (hne' : as ≠ [])
    (h : IsListOf m own orig as) : ¬ SlicesAt n orig rp 1 as m := by
  obtain ⟨⟨b, y⟩, vs, rfl⟩ := List.exists_cons_of_ne_nil hne'
  rintro ⟨m', more, hslice, -⟩
  have hshort : ([] : List (ℕ × α)).length < n := Nat.lt_of_lt_of_le (Nat.succ_pos _) hn
  have hcut := listSlice_of_split hne hshort h.chain
  rw [cutBefore_first rp (chain_init hne h.chain)] at hcut
  rw [List.length_nil, Nat.zero_add, hslice] at hcut
  exact nomatch hcut

/-- With any other limit one element too few stays. -/
theorem not_slicesAt_of_le (horig : orig ≠ own) (hrp : rp ≠ own) (hne : orig ≠ rp)
    (hn : as.length ≤ n) {k : ℕ} (hk : 0 < k) (hle : k + 1 ≤ as.length)
    (h : IsListOf m own orig as) : ¬ SlicesAt n orig rp (k + 1) as m := by
  obtain ⟨us, vs, ⟨a, x⟩, ⟨b, y⟩, rfl, rfl⟩ := exists_neighbours hk hle
  rintro ⟨m', more, hslice, ⟨own', hfirst⟩, -⟩
  have hshort : us.length + 1 < n := by
    simp only [List.length_append, List.length_cons] at hn
    omega
  obtain ⟨m'', hcut, -, -, -, hfront, -⟩ :=
    listSlice_cut horig hrp.symm hne hshort h.chain h.nodup
  obtain ⟨rfl, -⟩ := Prod.mk.inj (Option.some.inj (hslice.symm.trans hcut))
  have hlen := congrArg List.length (hfirst.chain.unique hfront)
  rw [List.length_take_of_le hle, List.length_append, List.length_singleton] at hlen
  omega

/-- **`list_slice` cuts where it is told just if there is nothing to cut.**  The headers are
those of `http_ct_done`: the one the elements belong to, with whatever earlier cuts left in it,
the one that is cut, and the one for the remainder. -/
theorem slicesAt_iff (horig : orig ≠ own) (hrp : rp ≠ own) (hne : orig ≠ rp)
    (hlimit : 1 ≤ limit) (hn : as.length ≤ n) (h : IsListOf m own orig as) :
    SlicesAt n orig rp limit as m ↔ as.length < limit := by
  refine ⟨fun hslices => ?_, fun hlt => slicesAt_of_lt hne hn hlt h⟩
  by_contra hnot
  have hle : limit ≤ as.length := Nat.le_of_not_lt hnot
  rcases Nat.eq_or_lt_of_le hlimit with rfl | hlt
  · exact not_slicesAt_one hne hn (List.ne_nil_of_length_pos hle) h hslices
  · obtain ⟨k, rfl⟩ := Nat.exists_eq_add_of_le' hlimit
    exact not_slicesAt_of_le horig hrp hne hn (by omega) hle h hslices

/-- Three elements and the limit of `http_ct_done`. -/
theorem slicesAt_three :
    ∃ (m : Mem ℕ) (as : List (ℕ × ℕ)), appendAll Mem.empty ctlistAt 0 [10, 20, 30] = some m ∧
      as.map Prod.snd = [10, 20, 30] ∧
      (SlicesAt 3 headAt tailAt bundleSize as (m.setList headAt (m.list ctlistAt)) ↔
        as.length < bundleSize) := by
  obtain ⟨m, as, hall, h, hdata⟩ :=
    (isList_empty ctlistAt).appendAll (a := 0) (by simp) [10, 20, 30]
  have hlen : as.length = 3 := by
    rw [← List.length_map (f := Prod.snd), hdata]
    rfl
  exact ⟨m, as, hall, hdata, slicesAt_iff (by decide) (by decide) (by decide) (by decide)
    hlen.le (h.copy headAt)⟩

/-- Of thirty contacts, which are one bundle, only twenty-nine stay. -/
theorem not_slicesAt_thirty :
    ∃ (m : Mem ContactEl) (as : List (ℕ × ContactEl)),
      appendAll Mem.empty ctlistAt 0 (thirtyContacts (lit "a")) = some m ∧
      as.map Prod.snd = thirtyContacts (lit "a") ∧
      IsListOf (m.setList headAt (m.list ctlistAt)) ctlistAt headAt as ∧
      (∃ m', listSlice 30 headAt tailAt bundleSize (m.setList headAt (m.list ctlistAt))
          = some (m', true) ∧
        elements 30 m' (m'.list headAt).head = some ((thirtyContacts (lit "a")).take 29)) ∧
      ¬ SlicesAt 30 headAt tailAt bundleSize as (m.setList headAt (m.list ctlistAt)) := by
  obtain ⟨m, as, hall, h, hdata⟩ :=
    (isList_empty ctlistAt).appendAll (a := 0) (by simp) (thirtyContacts (lit "a"))
  have hlen : as.length = 30 := by
    rw [← List.length_map (f := Prod.snd), hdata]
    rfl
  have hhead := h.copy headAt
  obtain ⟨m', hslice, hfront, -⟩ :=
    listSlice_spec (k := 29) (by decide) hlen.le hhead.chain hhead.nodup
  have hmore : decide (as ≠ []) = true := by
    rw [decide_eq_true_iff]
    exact List.ne_nil_of_length_pos (by omega)
  have htake : (as.take 29).length ≤ 30 := le_trans (List.length_take_le 29 _) (by decide)
  refine ⟨m, as, hall, hdata, hhead, ⟨m', by rw [← hmore]; exact hslice, ?_⟩,
    not_slicesAt_of_le (k := 29) (by decide) (by decide) (by decide) hlen.le (by decide)
      hlen.ge hhead⟩
  rw [elements_of_chain htake hfront, List.map_take, hdata]
  rfl

end Bundles
