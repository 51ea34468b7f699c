/-
# Closing the sound card on Android

OpenSL ES plays and records on threads of its own: each of the two buffer queues calls back when
it is done with a buffer, and the callback hands it the next one.  `opensl_sound_close` runs on
the main thread and may not free what the callbacks are using.  So it only sets `wait` to 2, and
leaves the rest to the callbacks, which exchange a 2 for a 1 in one atomic step: the first one to
come takes the 2 and does not ask for another buffer, the second one finds the 1 and destroys
everything.

The jitters come from `ajitter_init`, which calls `malloc`, and `opensl_sound_destroy` gives them
to `mem_deref`, which counts down in a header that only `mem_alloc` puts before a block.  So each
teardown writes outside of both, however the threads come (`Stream.Clean`).

A callback is two steps here, the exchange and what follows from what it returned, and any other
thread may come between them.  The bytes that go through the jitters are not part of it, and
neither is what becomes of the heap after `mem_deref` wrote where it should not.
-/
import Tcsip.Runs

namespace OpenSl

/-! ## The stream -/

/-- `bqPlayerBufferQueue` and `recorderBufferQueue`. -/
inductive BufferQueue
  | player
  | recorder
deriving DecidableEq

instance BufferQueue.fintype : Fintype BufferQueue :=
  ⟨{.player, .recorder}, fun q => by cases q <;> decide⟩

/-- The queue on the other thread. -/
def BufferQueue.other : BufferQueue → BufferQueue
  | .player => .recorder
  | .recorder => .player

/-- The buffers in a queue, and its thread: in no callback, or behind the exchange, which returned
`wait`. -/
structure Side where
  queued : ℕ
  thread : Option ℕ
deriving DecidableEq

/-- What allocated a block: `malloc`, or `mem_zalloc` with the header of `mem_deref` before it. -/
inductive Allocator
  | malloc
  | memZalloc
deriving DecidableEq

/-- `struct opensl_sound`: what allocated it and its jitters. -/
structure OpenslSound where
  self : Allocator
  playJitter : Allocator
  recordJitter : Allocator
deriving DecidableEq

/-- `OPENSL_STREAM` with its `struct opensl_sound`: how often they were destroyed, how often they
were used afterwards, or destroyed while they were in use, and how often `mem_deref` wrote before
a block that has no header. -/
structure Stream where
  wait : ℕ
  side : BufferQueue → Side
  ctx : OpenslSound
  destroyed : ℕ
  faults : ℕ
  strays : ℕ
deriving DecidableEq

/-- The value after `__sync_val_compare_and_swap`, and what it returned. -/
def syncValCompareAndSwap (val old new : ℕ) : ℕ × ℕ := if val = old then (new, val) else (val, val)

/-- A thread uses the memory of the stream. -/
def use (st : Stream) : Stream :=
  if st.destroyed = 0 then st else { st with faults := st.faults + 1 }

/-- `mem_deref` of a block. -/
def memDeref (st : Stream) : Allocator → Stream
  | .memZalloc => st
  | .malloc => { st with strays := st.strays + 1 }

/-- A queue and its thread go on. -/
def Stream.setSide (st : Stream) (q : BufferQueue) (x : Side) : Stream :=
  { st with side := Function.update st.side q x }

/-- What `ajitter_init` allocates a jitter with. -/
def ajitterInitBy : Allocator := .malloc

/-- What `opensl_sound_open` leaves. -/
def openslSoundOpen : Stream where
  wait := 0
  side _ := ⟨0, none⟩
  ctx := ⟨.memZalloc, ajitterInitBy, ajitterInitBy⟩
  destroyed := 0
  faults := 0
  strays := 0

/-- `Enqueue`: `android_AudioIn` for the recorder, `android_AudioOut` for the player. -/
def enqueue (st : Stream) (q : BufferQueue) : Stream :=
  st.setSide q { st.side q with queued := (st.side q).queued + 1 }

/-- `opensl_sound_start`: both queues get their first buffer. -/
def openslSoundStart (st : Stream) : Stream :=
  enqueue (enqueue (use st) .player) .recorder

/-- `opensl_sound_close`, on the main thread. -/
def openslSoundClose (st : Stream) : Stream := { use st with wait := 2 }

/-- The queue has a buffer, which lies in memory of the jitters, or its callback goes on to use the
stream. -/
def Side.Busy (x : Side) : Prop := 0 < x.queued ∨ x.thread = some 0 ∨ x.thread = some 1

instance (x : Side) : Decidable x.Busy :=
  inferInstanceAs (Decidable (0 < x.queued ∨ x.thread = some 0 ∨ x.thread = some 1))

/-- `opensl_sound_destroy`, called back by `q`. -/
def openslSoundDestroy (st : Stream) (q : BufferQueue) : Stream :=
  let st := use st
  let st := memDeref st st.ctx.playJitter
  let st := memDeref st st.ctx.recordJitter
  let st := memDeref st st.ctx.self
  { st with
    destroyed := st.destroyed + 1
    faults := if (st.side q.other).Busy then st.faults + 1 else st.faults }

/-- `bqPlayerCallback` and `bqRecorderCallback` up to the `switch`. -/
def bqCallback (st : Stream) (q : BufferQueue) : Stream :=
  let st := use st
  let (wait, returned) := syncValCompareAndSwap st.wait 2 1
  { st with wait }.setSide q ⟨(st.side q).queued - 1, some returned⟩

/-- The thread leaves its callback. -/
def leave (st : Stream) (q : BufferQueue) : Stream :=
  st.setSide q { st.side q with thread := none }

/-- `bqPlayerCallback` and `bqRecorderCallback` from the `switch` on. -/
def bqSwitch (st : Stream) (q : BufferQueue) (wait : ℕ) : Stream :=
  match wait with
  | 2 => leave st q
  | 1 => openslSoundDestroy (leave st q) q
  | _ => enqueue (use (leave st q)) q

/-! ## A call -/

/-- `call->media`, whether `call->cstate` has `CSTATE_FLOW|CSTATE_MEDIA`, whether `media->sound` is
set, and the stream that was opened. -/
structure CallSound where
  media : Bool
  flow : Bool
  sound : Bool
  stream : Option Stream
deriving DecidableEq

/-- A new call, with its media allocated. -/
def start : CallSound := ⟨true, false, false, none⟩

/-- `tcsipcall_activate` and the part of `tcmedia_start` about the sound; `err` is what `snd_open`
returns. -/
def activate (s : CallSound) (err : Bool) : CallSound :=
  if s.flow then s
  else if s.sound then { s with flow := true, stream := s.stream.map openslSoundStart }
  else if err then s
  else { s with flow := true, sound := true, stream := some (openslSoundStart openslSoundOpen) }

/-- `tcsipcall_hangup` and the part of `tcmedia_stop` about the sound. -/
def hangup (s : CallSound) : CallSound :=
  if s.sound then { s with media := false, sound := false, stream := s.stream.map openslSoundClose }
  else { s with media := false }

/-- What the threads can do: the main thread activates the call or hangs up, and a queue that is
done with a buffer calls back. -/
inductive Event
  | activate (err : Bool)
  | hangup
  | callback (q : BufferQueue)
  | switch (q : BufferQueue)
deriving DecidableEq

/-- The main thread has nothing to do with a call that is over; a queue calls back for one buffer
after the other. -/
def step (s : CallSound) : Event → Option CallSound
  | .activate err => if s.media then some (activate s err) else none
  | .hangup => if s.media then some (hangup s) else none
  | .callback q =>
    s.stream.bind fun st =>
      if 0 < (st.side q).queued ∧ (st.side q).thread = none then
        some { s with stream := some (bqCallback st q) }
      else none
  | .switch q =>
    s.stream.bind fun st =>
      (st.side q).thread.map fun wait => { s with stream := some (bqSwitch st q wait) }

/-- How often the sound was destroyed. -/
def CallSound.destroyed (s : CallSound) : ℕ := (s.stream.map Stream.destroyed).getD 0

/-- How often it was used too late, or destroyed too early. -/
def CallSound.faults (s : CallSound) : ℕ := (s.stream.map Stream.faults).getD 0

/-- How often `mem_deref` was given a block of `malloc`. -/
def CallSound.strays (s : CallSound) : ℕ := (s.stream.map Stream.strays).getD 0

/-! ## Who holds what -/

/-- The queue has its buffer, or its callback will ask for the next one. -/
def Side.Active (x : Side) : Prop := x = ⟨1, none⟩ ∨ x = ⟨0, some 0⟩

/-- The queue has no buffer, and its callback only returns. -/
def Side.Out (x : Side) : Prop := x = ⟨0, none⟩ ∨ x = ⟨0, some 2⟩

/-- How far the stream is: nobody wants to close it, nobody has seen yet that it is closed, one
queue has, or both have. -/
inductive Phase (st : Stream) : Bool → Prop
  | live (hwait : st.wait = 0) (hactive : ∀ q, (st.side q).Active) (hdestroyed : st.destroyed = 0) :
      Phase st true
  | closed (hwait : st.wait = 2) (hactive : ∀ q, (st.side q).Active)
      (hdestroyed : st.destroyed = 0) : Phase st false
  | halfway (q : BufferQueue) (hwait : st.wait = 1) (hout : (st.side q).Out)
      (hlast : (st.side q.other).Active ∨ st.side q.other = ⟨0, some 1⟩)
      (hdestroyed : st.destroyed = 0) : Phase st false
  | gone (hwait : st.wait = 1) (hout : ∀ q, (st.side q).Out) (hdestroyed : st.destroyed = 1) :
      Phase st false

/-- Nothing went wrong but for the two jitters of each teardown. -/
structure Stream.Clean (st : Stream) : Prop where
  ctx : st.ctx = ⟨.memZalloc, .malloc, .malloc⟩
  faults : st.faults = 0
  strays : st.strays = 2 * st.destroyed

/-- The stream of a call, if there is one, is open as long as the call, and is clean. -/
structure Inv (s : CallSound) : Prop where
  flow : s.flow = s.stream.isSome
  sound : s.sound = (s.media && s.stream.isSome)
  phase : ∀ st ∈ s.stream, Phase st s.media
  clean : ∀ st ∈ s.stream, st.Clean

/-- The two queues are two. -/
@[simp] theorem BufferQueue.other_ne (q : BufferQueue) : q.other ≠ q := by cases q <;> decide

@[simp] theorem BufferQueue.other_other (q : BufferQueue) : q.other.other = q := by cases q <;> rfl

/-- A property of both queues. -/
theorem BufferQueue.forall_iff {P : BufferQueue → Prop} (q : BufferQueue) :
    (∀ r, P r) ↔ P q ∧ P q.other := by
  constructor
  · exact fun h => ⟨h q, h q.other⟩
  · rintro ⟨hq, ho⟩ r
    cases q <;> cases r <;> assumption

/-- There is no third queue. -/
theorem BufferQueue.eq_or_eq_other (q r : BufferQueue) : r = q ∨ r = q.other := by
  cases q <;> cases r <;> decide

/-- It is no fault to use a stream that is there. -/
theorem use_of_zero {st : Stream} (h : st.destroyed = 0) : use st = st := if_pos h

/-- What is out is not busy. -/
theorem Side.Out.not_busy {x : Side} (h : x.Out) : ¬ x.Busy := by
  rcases h with rfl | rfl <;> decide

/-! ## What a step does -/

section Steps

variable {st : Stream} {q : BufferQueue}

@[simp] theorem setSide_self (st : Stream) (q : BufferQueue) (x : Side) :
    (st.setSide q x).side q = x := Function.update_self ..

@[simp] theorem setSide_other (st : Stream) (q : BufferQueue) (x : Side) :
    (st.setSide q x).side q.other = st.side q.other := Function.update_of_ne q.other_ne ..

@[simp] theorem setSide_other_self (st : Stream) (q : BufferQueue) (x : Side) :
    (st.setSide q.other x).side q = st.side q := Function.update_of_ne q.other_ne.symm ..

@[simp] theorem setSide_wait (st : Stream) (q : BufferQueue) (x : Side) :
    (st.setSide q x).wait = st.wait := rfl

@[simp] theorem setSide_destroyed (st : Stream) (q : BufferQueue) (x : Side) :
    (st.setSide q x).destroyed = st.destroyed := rfl

/-- What a queue and its thread do is clean. -/
theorem Stream.Clean.setSide (h : st.Clean) (q : BufferQueue) (x : Side) : (st.setSide q x).Clean :=
  ⟨h.ctx, h.faults, h.strays⟩

@[simp] theorem setSide_setSide (st : Stream) (q : BufferQueue) (x y : Side) :
    (st.setSide q x).setSide q y = st.setSide q y := by
  unfold Stream.setSide
  rw [Function.update_idem]

/-- One side changes: what is to be shown of both is to be shown of the new side. -/
theorem forall_setSide {P : Side → Prop} {x : Side} (hx : P x) (h : P (st.side q.other)) :
    ∀ r, P ((st.setSide q x).side r) :=
  (BufferQueue.forall_iff q).mpr ⟨(setSide_self st q x).symm ▸ hx, (setSide_other st q x).symm ▸ h⟩

/-- An active queue that has a buffer is in no callback. -/
theorem Side.Active.of_queued {x : Side} (h : x.Active) (hq : 0 < x.queued) : x = ⟨1, none⟩ := by
  rcases h with rfl | rfl
  · rfl
  · exact absurd hq (lt_irrefl 0)

/-- A queue that is out never calls back again. -/
theorem Side.Out.queued {x : Side} (h : x.Out) : x.queued = 0 := by
  rcases h with rfl | rfl <;> rfl

/-- The callback of an active queue found 0 in `wait`. -/
theorem Side.Active.of_thread {x : Side} (h : x.Active) {wait : ℕ} (hw : x.thread = some wait) :
    wait = 0 ∧ x = ⟨0, some 0⟩ := by
  rcases h with rfl | rfl
  · exact nomatch hw
  · exact ⟨(Option.some.inj hw).symm, rfl⟩

/-- The callback of a queue that is out found 2 in `wait`. -/
theorem Side.Out.of_thread {x : Side} (h : x.Out) {wait : ℕ} (hw : x.thread = some wait) :
    wait = 2 ∧ x = ⟨0, some 2⟩ := by
  rcases h with rfl | rfl
  · exact nomatch hw
  · exact ⟨(Option.some.inj hw).symm, rfl⟩

/-- A queue that calls back has its one buffer, and the stream is there. -/
theorem Phase.on_callback {media : Bool} (h : Phase st media) (hq : 0 < (st.side q).queued) :
    st.side q = ⟨1, none⟩ ∧ st.destroyed = 0 := by
  cases h with
  | live _ hactive hdestroyed => exact ⟨(hactive q).of_queued hq, hdestroyed⟩
  | closed _ hactive hdestroyed => exact ⟨(hactive q).of_queued hq, hdestroyed⟩
  | halfway r _ hout hlast hdestroyed =>
      refine ⟨?_, hdestroyed⟩
      rcases r.eq_or_eq_other q with rfl | rfl
      · exact absurd hout.queued hq.ne'
      · rcases hlast with hactive | hx
        · exact hactive.of_queued hq
        · rw [hx] at hq
          exact absurd hq (lt_irrefl 0)
  | gone _ hall _ => exact absurd (hall q).queued hq.ne'

/-- What a callback takes note of, and what it leaves. -/
theorem bqCallback_eq (hx : st.side q = ⟨1, none⟩) (hdestroyed : st.destroyed = 0) :
    bqCallback st q =
      { st with wait := if st.wait = 2 then 1 else st.wait }.setSide q ⟨0, some st.wait⟩ := by
  unfold bqCallback syncValCompareAndSwap
  rw [use_of_zero hdestroyed]
  dsimp only
  rw [hx]
  split_ifs <;> rfl

/-- What goes on behind the exchange: the next buffer, the return, or the end of a stream that the
other queue does not use any more. -/
theorem Phase.on_switch {media : Bool} (h : Phase st media) {wait : ℕ}
    (hw : (st.side q).thread = some wait) :
    (wait = 0 ∧ st.side q = ⟨0, some 0⟩ ∧ st.destroyed = 0) ∨
    (wait = 2 ∧ st.side q = ⟨0, some 2⟩) ∨
    (wait = 1 ∧ st.side q = ⟨0, some 1⟩ ∧ (st.side q.other).Out ∧ st.destroyed = 0) := by
  cases h with
  | live _ hactive hdestroyed =>
      obtain ⟨h0, hx⟩ := (hactive q).of_thread hw
      exact Or.inl ⟨h0, hx, hdestroyed⟩
  | closed _ hactive hdestroyed =>
      obtain ⟨h0, hx⟩ := (hactive q).of_thread hw
      exact Or.inl ⟨h0, hx, hdestroyed⟩
  | halfway r _ hout hlast hdestroyed =>
      rcases r.eq_or_eq_other q with rfl | rfl
      · exact Or.inr (Or.inl (hout.of_thread hw))
      · rcases hlast with hactive | hx
        · obtain ⟨h0, hx⟩ := hactive.of_thread hw
          exact Or.inl ⟨h0, hx, hdestroyed⟩
        · refine Or.inr (Or.inr ⟨?_, hx, ?_, hdestroyed⟩)
          · rw [hx] at hw
            exact (Option.some.inj hw).symm
          · rwa [BufferQueue.other_other]
  | gone _ hall _ => exact Or.inr (Or.inl ((hall q).of_thread hw))

/-- **The exchange.**  Before the stream is closed it changes nothing; the first one after it takes
the 2, and the next one finds the 1. -/
theorem Phase.callback {media : Bool} (h : Phase st media) (hclean : st.Clean)
    (hq : 0 < (st.side q).queued) :
    Phase (bqCallback st q) media ∧ (bqCallback st q).Clean := by
  obtain ⟨hx, hdestroyed⟩ := h.on_callback hq
  rw [bqCallback_eq hx hdestroyed]
  refine ⟨?_, hclean.ctx, hclean.faults, hclean.strays⟩
  cases h with
  | live hwait hactive _ =>
      rw [hwait, if_neg (by decide)]
      exact .live rfl (forall_setSide (Or.inr rfl) (hactive _)) hdestroyed
  | closed hwait hactive _ =>
      rw [hwait, if_pos rfl]
      refine .halfway q rfl ?_ ?_ hdestroyed
      · rw [setSide_self]
        exact Or.inr rfl
      · rw [setSide_other]
        exact Or.inl (hactive _)
  | halfway r hwait hr hlast _ =>
      obtain rfl : q = r.other := by
        rcases r.eq_or_eq_other q with rfl | hother
        · exact absurd hr.queued hq.ne'
        · exact hother
      rw [hwait, if_neg (by decide)]
      refine .halfway r rfl ?_ ?_ hdestroyed
      · rw [setSide_other_self]
        exact hr
      · rw [setSide_self]
        exact Or.inr rfl
  | gone _ hall _ => exact absurd (hall q).queued hq.ne'

/-- The callback asks for the next buffer. -/
theorem bqSwitch_zero (hx : st.side q = ⟨0, some 0⟩) (hdestroyed : st.destroyed = 0) :
    bqSwitch st q 0 = st.setSide q ⟨1, none⟩ := by
  have huse : use (leave st q) = leave st q := use_of_zero hdestroyed
  show enqueue (use (leave st q)) q = _
  rw [huse, enqueue, leave, setSide_self, setSide_setSide, hx]

/-- It only returns. -/
theorem bqSwitch_two (hx : st.side q = ⟨0, some 2⟩) :
    bqSwitch st q 2 = st.setSide q ⟨0, none⟩ := by
  show leave st q = _
  rw [leave, hx]

/-- It destroys a stream that the other queue does not use any more, and `mem_deref` is given both
jitters. -/
theorem bqSwitch_one (hclean : st.Clean) (hx : st.side q = ⟨0, some 1⟩)
    (hother : (st.side q.other).Out) (hdestroyed : st.destroyed = 0) :
    bqSwitch st q 1 = { st.setSide q ⟨0, none⟩ with destroyed := 1, strays := 2 } := by
  have huse : use (st.setSide q ⟨0, none⟩) = st.setSide q ⟨0, none⟩ := use_of_zero hdestroyed
  have hctx : (st.setSide q ⟨0, none⟩).ctx = ⟨.memZalloc, .malloc, .malloc⟩ := hclean.ctx
  have hstrays : (st.setSide q ⟨0, none⟩).strays = 0 := by
    rw [(hclean.setSide q ⟨0, none⟩).strays, setSide_destroyed, hdestroyed]
  show openslSoundDestroy (leave st q) q = _
  rw [leave, hx, openslSoundDestroy, huse]
  simp only [memDeref, hctx]
  rw [setSide_other, if_neg hother.not_busy, setSide_destroyed, hdestroyed, hstrays]

/-- **What follows from it.**  A callback of a stream that is open, or was when it came, asks for
the next buffer; the first one after that only returns; the last one destroys the stream when the
other queue is out. -/
theorem Phase.switch {media : Bool} (h : Phase st media) (hclean : st.Clean) {wait : ℕ}
    (hw : (st.side q).thread = some wait) :
    Phase (bqSwitch st q wait) media ∧ (bqSwitch st q wait).Clean := by
  cases h with
  | live hwait hactive hdestroyed =>
      obtain ⟨rfl, hx⟩ := (hactive q).of_thread hw
      rw [bqSwitch_zero hx hdestroyed]
      exact ⟨.live hwait (forall_setSide (Or.inl rfl) (hactive _)) hdestroyed, hclean.setSide _ _⟩
  | closed hwait hactive hdestroyed =>
      obtain ⟨rfl, hx⟩ := (hactive q).of_thread hw
      rw [bqSwitch_zero hx hdestroyed]
      exact ⟨.closed hwait (forall_setSide (Or.inl rfl) (hactive _)) hdestroyed,
        hclean.setSide _ _⟩
  | halfway r hwait hr hlast hdestroyed =>
      rcases r.eq_or_eq_other q with rfl | rfl
      · obtain ⟨rfl, hx⟩ := hr.of_thread hw
        rw [bqSwitch_two hx]
        refine ⟨.halfway q hwait ?_ ?_ hdestroyed, hclean.setSide _ _⟩
        · rw [setSide_self]
          exact Or.inl rfl
        · rw [setSide_other]
          exact hlast
      · rcases hlast with hactive | hx
        · obtain ⟨rfl, hx⟩ := hactive.of_thread hw
          rw [bqSwitch_zero hx hdestroyed]
          refine ⟨.halfway r hwait ?_ (Or.inl ?_) hdestroyed, hclean.setSide _ _⟩
          · rw [setSide_other_self]
            exact hr
          · rw [setSide_self]
            exact Or.inl rfl
        · -- the last callback
          rw [hx] at hw
          obtain rfl := Option.some.inj hw
          rw [bqSwitch_one hclean hx (by rwa [BufferQueue.other_other]) hdestroyed]
          refine ⟨.gone hwait (forall_setSide (Or.inl rfl) ?_) rfl, hclean.ctx, hclean.faults, rfl⟩
          rwa [BufferQueue.other_other]
  | gone hwait hall hdestroyed =>
      obtain ⟨rfl, hx⟩ := (hall q).of_thread hw
      rw [bqSwitch_two hx]
      exact ⟨.gone hwait (forall_setSide (Or.inl rfl) (hall _)) hdestroyed, hclean.setSide _ _⟩

end Steps

/-! ## Every run -/

section Runs

variable {s t : CallSound}

/-- A new call has no stream. -/
theorem inv_start : Inv start :=
  ⟨rfl, rfl, fun _ h => absurd h (Option.not_mem_none _),
    fun _ h => absurd h (Option.not_mem_none _)⟩

/-- The stream of a call that is activated. -/
theorem phase_started : Phase (openslSoundStart openslSoundOpen) true :=
  .live rfl (fun q => by cases q <;> exact Or.inl (by decide)) rfl

/-- What is closed is a stream that is open. -/
theorem Phase.close {st : Stream} (h : Phase st true) (hclean : st.Clean) :
    Phase (openslSoundClose st) false ∧ (openslSoundClose st).Clean := by
  cases h with
  | live hwait hactive hdestroyed =>
      have heq : openslSoundClose st = { st with wait := 2 } := by
        rw [openslSoundClose, use_of_zero hdestroyed]
      rw [heq]
      exact ⟨.closed rfl hactive hdestroyed, hclean.ctx, hclean.faults, hclean.strays⟩

/-- Without flow there is no stream. -/
theorem Inv.stream_none (h : Inv s) (hflow : s.flow = false) : s.stream = none := by
  rw [h.flow] at hflow
  exact Option.not_isSome_iff_eq_none.mp (Bool.eq_false_iff.mp hflow)

/-- The first activation opens the stream, and a later one changes nothing. -/
theorem Inv.activate (h : Inv s) (hmedia : s.media = true) (err : Bool) : Inv (activate s err) := by
  unfold OpenSl.activate
  split_ifs with hflow hsound
  · exact h
  · -- without the flags there is no stream
    rw [h.sound, h.stream_none (Bool.eq_false_iff.mpr hflow)] at hsound
    exact absurd hsound (by simp)
  · exact h
  · refine ⟨rfl, ?_, fun st hst => ?_, fun st hst => ?_⟩
    · simp [hmedia]
    · obtain rfl := Option.some.inj hst
      exact hmedia ▸ phase_started
    · obtain rfl := Option.some.inj hst
      exact ⟨rfl, rfl, rfl⟩

/-- A hangup closes a stream that is open. -/
theorem Inv.hangup (h : Inv s) (hmedia : s.media = true) : Inv (hangup s) := by
  have hsound := h.sound
  rw [hmedia, Bool.true_and] at hsound
  unfold OpenSl.hangup
  cases hstream : s.stream with
  | none =>
      rw [hstream, Option.isSome_none] at hsound
      rw [if_neg (by simp [hsound])]
      refine ⟨h.flow.trans (by rw [hstream]), ?_, fun st hst => ?_, fun st hst => ?_⟩
      · simpa using hsound
      · exact absurd hst (Option.not_mem_none st)
      · exact absurd hst (Option.not_mem_none st)
  | some st =>
      rw [hstream, Option.isSome_some] at hsound
      rw [if_pos hsound]
      obtain ⟨hphase, hclean⟩ := (hmedia ▸ h.phase st hstream).close (h.clean st hstream)
      refine ⟨?_, rfl, fun st' hst => ?_, fun st' hst => ?_⟩
      · rw [h.flow, hstream]
        rfl
      · obtain rfl := Option.some.inj hst
        exact hphase
      · obtain rfl := Option.some.inj hst
        exact hclean

/-- The stream of a call changes, and stays what it is to the call. -/
theorem Inv.withStream (h : Inv s) {st st' : Stream} (hstream : s.stream = some st)
    (hnew : Phase st' s.media ∧ st'.Clean) : Inv { s with stream := some st' } := by
  refine ⟨?_, ?_, fun st'' hst => ?_, fun st'' hst => ?_⟩
  · rw [h.flow, hstream]
    rfl
  · rw [h.sound, hstream]
    rfl
  · obtain rfl := Option.some.inj hst
    exact hnew.1
  · obtain rfl := Option.some.inj hst
    exact hnew.2

/-- What a queue needs to call back, and what comes of it. -/
theorem step_callback {q : BufferQueue} (ht : step s (.callback q) = some t) :
    ∃ st, s.stream = some st ∧ 0 < (st.side q).queued ∧ (st.side q).thread = none ∧
      t = { s with stream := some (bqCallback st q) } := by
  obtain ⟨st, hstream, hif⟩ := Option.bind_eq_some_iff.mp ht
  split_ifs at hif with hq
  exact ⟨st, hstream, hq.1, hq.2, (Option.some.inj hif).symm⟩

/-- What a `switch` does to the call. -/
theorem step_switch {q : BufferQueue} (ht : step s (.switch q) = some t) :
    ∃ st wait, s.stream = some st ∧ (st.side q).thread = some wait ∧
      t = { s with stream := some (bqSwitch st q wait) } := by
  obtain ⟨st, hstream, hmap⟩ := Option.bind_eq_some_iff.mp ht
  obtain ⟨wait, hw, rfl⟩ := Option.map_eq_some_iff.mp hmap
  exact ⟨st, wait, hstream, hw, rfl⟩

/-- **A step of any thread** keeps the invariant. -/
theorem Inv.step (h : Inv s) {e : Event} (ht : step s e = some t) : Inv t := by
  cases e with
  | activate err =>
      unfold OpenSl.step at ht
      split_ifs at ht with hmedia
      obtain rfl := Option.some.inj ht
      exact h.activate hmedia err
  | hangup =>
      unfold OpenSl.step at ht
      split_ifs at ht with hmedia
      obtain rfl := Option.some.inj ht
      exact h.hangup hmedia
  | callback q =>
      obtain ⟨st, hstream, hq, -, rfl⟩ := step_callback ht
      exact h.withStream hstream ((h.phase st hstream).callback (h.clean st hstream) hq)
  | switch q =>
      obtain ⟨st, wait, hstream, hw, rfl⟩ := step_switch ht
      exact h.withStream hstream ((h.phase st hstream).switch (h.clean st hstream) hw)

/-! ## What is left to do -/

/-- The steps that a side may still take: a callback for the buffer and what follows from it, and
one more round if the next buffer is still asked for. -/
def Side.weight (x : Side) : ℕ :=
  2 * x.queued + match x.thread with
    | none => 0
    | some 0 => 3
    | some _ => 1

/-- The steps that both sides may still take. -/
def Stream.weight (st : Stream) : ℕ := (st.side .player).weight + (st.side .recorder).weight

/-- The weight seen from either side. -/
theorem Stream.weight_eq (st : Stream) (q : BufferQueue) :
    st.weight = (st.side q).weight + (st.side q.other).weight := by
  cases q with
  | player => rfl
  | recorder => exact Nat.add_comm _ _

/-- An active queue has three steps left at most: it calls back, asks for a buffer, calls back. -/
theorem Side.Active.weight_le {x : Side} (h : x.Active) : x.weight ≤ 3 := by
  rcases h with rfl | rfl <;> decide

/-- A queue that is out has its callback to leave. -/
theorem Side.Out.weight_le {x : Side} (h : x.Out) : x.weight ≤ 1 := by
  rcases h with rfl | rfl <;> decide

/-- There are never more than six. -/
theorem Phase.weight_le {st : Stream} {media : Bool} (h : Phase st media) : st.weight ≤ 6 := by
  cases h with
  | live _ hactive _ => exact Nat.add_le_add (hactive _).weight_le (hactive _).weight_le
  | closed _ hactive _ => exact Nat.add_le_add (hactive _).weight_le (hactive _).weight_le
  | halfway q _ hout hlast _ =>
      have hle : (st.side q.other).weight ≤ 3 := by
        rcases hlast with hactive | hx
        · exact hactive.weight_le
        · rw [hx]
          decide
      have hle' := hout.weight_le
      rw [st.weight_eq q]
      omega
  | gone _ hall _ =>
      exact (Nat.add_le_add (hall _).weight_le (hall _).weight_le).trans (by decide)

/-- Only the side that changes changes the weight. -/
theorem weight_setSide (st : Stream) (q : BufferQueue) (x : Side) :
    (st.setSide q x).weight + (st.side q).weight = st.weight + x.weight := by
  rw [(st.setSide q x).weight_eq q, st.weight_eq q, setSide_self, setSide_other]
  omega

/-- **A stream that is closed winds down**: each callback and each thing that follows from one
leaves less to do. -/
theorem Phase.callback_weight {st : Stream} {q : BufferQueue} (h : Phase st false)
    (hq : 0 < (st.side q).queued) : (bqCallback st q).weight < st.weight := by
  obtain ⟨hx, hdestroyed⟩ := h.on_callback hq
  have hwait : st.wait ≠ 0 := by
    cases h with
    | closed hwait _ _ => rw [hwait]; decide
    | halfway _ hwait _ _ _ => rw [hwait]; decide
    | gone hwait _ _ => rw [hwait]; decide
  have hone : (⟨0, some st.wait⟩ : Side).weight = 1 := by
    unfold Side.weight
    obtain ⟨n, hn⟩ := Nat.exists_eq_succ_of_ne_zero hwait
    rw [hn]
    rfl
  have htwo : (⟨1, none⟩ : Side).weight = 2 := rfl
  have hsum := weight_setSide { st with wait := if st.wait = 2 then 1 else st.wait } q
    ⟨0, some st.wait⟩
  rw [← bqCallback_eq hx hdestroyed, hone] at hsum
  dsimp only at hsum
  rw [hx, htwo] at hsum
  have hsame : ({ st with wait := if st.wait = 2 then 1 else st.wait } : Stream).weight =
      st.weight := rfl
  omega

/-- Once the stream is closed, a `switch` leaves less to do. -/
theorem Phase.switch_weight {st : Stream} {q : BufferQueue} (h : Phase st false)
    (hclean : st.Clean) {wait : ℕ} (hw : (st.side q).thread = some wait) :
    (bqSwitch st q wait).weight < st.weight := by
  have hless {x y : Side} (hx : st.side q = x) (hlt : y.weight < x.weight) :
      (st.setSide q y).weight < st.weight := by
    have hsum := weight_setSide st q y
    rw [hx] at hsum
    omega
  rcases h.on_switch hw with ⟨rfl, hx, hdestroyed⟩ | ⟨rfl, hx⟩ | ⟨rfl, hx, hother, hdestroyed⟩
  · rw [bqSwitch_zero hx hdestroyed]
    exact hless hx (by decide)
  · rw [bqSwitch_two hx]
    exact hless hx (by decide)
  · rw [bqSwitch_one hclean hx hother hdestroyed]
    exact hless hx (by decide)

/-- The steps that the stream of a call may still take, if it has one. -/
def CallSound.weight (s : CallSound) : ℕ := (s.stream.map Stream.weight).getD 0

/-- A call that is over has six steps left at most. -/
theorem Inv.weight_le (h : Inv s) : s.weight ≤ 6 := by
  unfold CallSound.weight
  cases hstream : s.stream with
  | none => exact Nat.zero_le 6
  | some st => exact (h.phase st hstream).weight_le

/-- **A step of a call that is over** is one of the queues, and leaves less to do. -/
theorem Inv.step_weight (h : Inv s) (hmedia : s.media = false) {e : Event}
    (ht : OpenSl.step s e = some t) : t.media = false ∧ t.weight < s.weight := by
  have hover : ¬ s.media = true := Bool.eq_false_iff.mp hmedia
  cases e with
  | activate err => exact absurd ht (by simp [OpenSl.step, hover])
  | hangup => exact absurd ht (by simp [OpenSl.step, hover])
  | callback q =>
      obtain ⟨st, hstream, hq, -, rfl⟩ := step_callback ht
      refine ⟨hmedia, ?_⟩
      unfold CallSound.weight
      rw [hstream]
      exact (hmedia ▸ h.phase st hstream).callback_weight hq
  | switch q =>
      obtain ⟨st, wait, hstream, hw, rfl⟩ := step_switch ht
      refine ⟨hmedia, ?_⟩
      unfold CallSound.weight
      rw [hstream]
      exact (hmedia ▸ h.phase st hstream).switch_weight (h.clean st hstream) hw

/-- So a run of such a call is no longer than what is left to do. -/
theorem Inv.length_le (h : Inv s) (hmedia : s.media = false) {es : List Event}
    (hrun : Runs.run OpenSl.step s es = some t) : es.length + t.weight ≤ s.weight ∧ Inv t ∧
      t.media = false := by
  induction es generalizing s with
  | nil =>
      obtain rfl := Option.some.inj hrun
      exact ⟨(Nat.zero_add _).le, h, hmedia⟩
  | cons e es ih =>
      obtain ⟨u, hu, hrest⟩ := (Runs.run_cons_eq_some _).mp hrun
      obtain ⟨humedia, hlt⟩ := h.step_weight hmedia hu
      obtain ⟨hle, hinv, hend⟩ := ih (h.step hu) humedia hrest
      refine ⟨?_, hinv, hend⟩
      rw [List.length_cons]
      omega

/-- **When no thread can go on** a stream that was opened has been destroyed. -/
theorem Inv.destroyed_of_stuck (h : Inv s) (hmedia : s.media = false)
    (hstuck : ∀ e, OpenSl.step s e = none) : s.destroyed = if s.flow then 1 else 0 := by
  unfold CallSound.destroyed
  cases hstream : s.stream with
  | none =>
      rw [h.flow, hstream]
      rfl
  | some st =>
      have hflow : s.flow = true := by rw [h.flow, hstream]; rfl
      -- a queue with a buffer could call back, and a callback could go on
      have hquiet : ∀ q, (st.side q).queued = 0 ∧ (st.side q).thread = none := by
        intro q
        have hthread : (st.side q).thread = none := by
          have hno := hstuck (.switch q)
          unfold OpenSl.step at hno
          rw [hstream] at hno
          exact Option.map_eq_none_iff.mp hno
        refine ⟨?_, hthread⟩
        have hno := hstuck (.callback q)
        unfold OpenSl.step at hno
        simp only [hstream, Option.bind_some, hthread, and_true] at hno
        by_contra hq
        rw [if_pos (Nat.pos_of_ne_zero hq)] at hno
        exact nomatch hno
      have hinactive : ∀ q, ¬ (st.side q).Active := by
        rintro q (hx | hx)
        · exact absurd (hquiet q).1 (by rw [hx]; decide)
        · exact absurd (hquiet q).2 (by rw [hx]; decide)
      rw [if_pos hflow]
      have hphase : Phase st false := hmedia ▸ h.phase st hstream
      cases hphase with
      | closed _ hactive _ => exact absurd (hactive .player) (hinactive .player)
      | halfway q _ _ hlast _ =>
          rcases hlast with hactive | hx
          · exact absurd hactive (hinactive _)
          · exact absurd (hquiet q.other).2 (by rw [hx]; decide)
      | gone _ _ hdestroyed => exact hdestroyed

/-- Nothing is destroyed twice. -/
theorem Phase.destroyed_le {st : Stream} {media : Bool} (h : Phase st media) :
    st.destroyed ≤ 1 := by
  cases h with
  | live _ _ hdestroyed => exact hdestroyed.trans_le zero_le_one
  | closed _ _ hdestroyed => exact hdestroyed.trans_le zero_le_one
  | halfway _ _ _ _ hdestroyed => exact hdestroyed.trans_le zero_le_one
  | gone _ _ hdestroyed => exact hdestroyed.le

/-- An open stream is there. -/
theorem Phase.destroyed_of_live {st : Stream} (h : Phase st true) : st.destroyed = 0 := by
  cases h with
  | live _ _ hdestroyed => exact hdestroyed

/-- What may be asked of a stream at any time, and what its destruction does to the heap. -/
structure Safe (s : CallSound) : Prop where
  faults : s.faults = 0
  strays : s.strays = 2 * s.destroyed
  alive : s.media = true → s.destroyed = 0
  once : s.destroyed ≤ 1

/-- **A sound state is safe**. -/
theorem Inv.safe (h : Inv s) : Safe s := by
  cases hstream : s.stream with
  | none =>
      constructor
      · rw [CallSound.faults, hstream]
        rfl
      · rw [CallSound.strays, CallSound.destroyed, hstream]
        rfl
      · intro _
        rw [CallSound.destroyed, hstream]
        rfl
      · rw [CallSound.destroyed, hstream]
        exact Nat.zero_le 1
  | some st =>
      have hle : st.destroyed ≤ 1 := (h.phase st hstream).destroyed_le
      constructor
      · rw [CallSound.faults, hstream]
        exact (h.clean st hstream).faults
      · rw [CallSound.strays, CallSound.destroyed, hstream]
        exact (h.clean st hstream).strays
      · intro hmedia
        rw [CallSound.destroyed, hstream]
        exact (hmedia ▸ h.phase st hstream : Phase st true).destroyed_of_live
      · rw [CallSound.destroyed, hstream]
        exact hle

end Runs

end OpenSl
