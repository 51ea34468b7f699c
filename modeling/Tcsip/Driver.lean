/-
# The command reader

`driver.c` serves one control client at a time.  `read_cb` puts what it receives into the
buffer of one unpacker and passes each object that is complete to `tcsip_ob_cmd`.  The unpacker
is made once: `accept_cb` does not reset it, so a client whose predecessor left in the middle of
an object goes on where that one stopped (`decodesAlone_iff`).

`read_cb` returns unless an object or an element of one begins with a byte that none begins
with, which the loop meets again for ever, or `read` fails while no byte is left to read: the
count -1 is held in a `size_t`, and the buffer shrinks by one byte (`allReturn_iff`).
-/
import Tcsip.MsgpackUnpack
import Tcsip.Runs

open Msgpack Runs

/-! ## The reader -/

/-- The result of `read`: these bytes, where none is the count 0 at the end of the stream, or
-1. -/
inductive ReadResult where
  | bytes (bs : List Byte)
  | error

/-- The unpacker when `msgpack_unpacker_execute` is called first, or nothing if it is not called
(`some none`), or if its assertion fails (`none`). -/
def readReceived (up : Unpacker) : ReadResult → Option (Option Unpacker)
  | .bytes [] => some none
  | .bytes (b :: bs) => some (some (up.feed (b :: bs)))
  | .error =>
    -- `SIZE_MAX` more bytes are one byte less
    match up.buf with
    | [] => none
    | _ :: _ => some (some ⟨up.ctx, up.buf.dropLast⟩)

/-- `read_cb`, for so many rounds of its loop at most: the objects passed to `tcsip_ob_cmd`, and
the unpacker that is left. -/
def readCb (n : ℕ) (up : Unpacker) (r : ReadResult) : Option (List Obj × Unpacker) :=
  (readReceived up r).bind fun
    | none => some ([], up)
    | some up' => readLoop n up'

/-- `read_cb` with as many rounds as it may need. -/
def readCbAll (up : Unpacker) (r : ReadResult) : Option (List Obj × Unpacker) :=
  (readReceived up r).bind fun
    | none => some ([], up)
    | some up' => readLoop (rounds up') up'

theorem readCb_iff {up up' : Unpacker} {r : ReadResult} {objs : List Obj} :
    (∃ n, readCb n up r = some (objs, up')) ↔ readCbAll up r = some (objs, up') := by
  unfold readCb readCbAll
  cases readReceived up r with
  | none => simp
  | some waiting =>
      cases waiting with
      | none => simp
      | some up₁ => exact readLoop_iff.trans readLoop_rounds_iff.symm

/-! ## Unpackers that wait -/

/-- The unpacker waits for bytes, as it does whenever `read_cb` is not running. -/
def UnpackerWaits (up : Unpacker) : Prop := spin up = none

theorem unpackerWaits_fresh : UnpackerWaits .fresh := rfl

/-- It waits for a header, or for what follows one. -/
theorem unpackerWaits_iff (up : Unpacker) :
    UnpackerWaits up ↔
      up.ctx.cs = .header ∧ up.buf = [] ∨ ∃ kind, up.ctx.cs = .trail kind ∧
        up.buf.length < kind.len := by
  obtain ⟨⟨cs, stack⟩, buf⟩ := up
  have hperform : ∀ last rest a, (perform stack last rest a).result stack ≠ none := by
    intro last rest a
    rcases perform_cases stack last rest a with ⟨h, -⟩ | ⟨ob, h⟩ | ⟨ctx, h⟩ <;> rw [h] <;>
      exact Option.some_ne_none _
  unfold UnpackerWaits spin
  cases cs with
  | header =>
      cases buf with
      | nil => exact iff_of_true rfl (Or.inl ⟨rfl, rfl⟩)
      | cons b rest => exact iff_of_false (hperform _ _ _) (by simp)
  | trail kind =>
      dsimp only
      rw [turn_trail]
      split_ifs with hshort
      · exact iff_of_true rfl (Or.inr ⟨kind, rfl, hshort⟩)
      · refine iff_of_false (hperform _ _ _) ?_
        rintro (⟨h, -⟩ | ⟨kind', h, hlt⟩)
        · exact absurd h (by simp)
        · obtain rfl := Cs.trail.inj h
          exact hshort hlt

/-- A byte less is still too few. -/
theorem UnpackerWaits.dropLast {up : Unpacker} (h : UnpackerWaits up) :
    UnpackerWaits ⟨up.ctx, up.buf.dropLast⟩ := by
  rw [unpackerWaits_iff] at h ⊢
  rcases h with ⟨hcs, hbuf⟩ | ⟨kind, hcs, hlt⟩
  · exact Or.inl ⟨hcs, by dsimp only; rw [hbuf]; rfl⟩
  · refine Or.inr ⟨kind, hcs, ?_⟩
    dsimp only
    rw [List.length_dropLast]
    omega

theorem UnpackerWaits.reads {up : Unpacker} (h : UnpackerWaits up) {objs : List Obj}
    {up' : Unpacker} :
    Reads up objs up' ↔ objs = [] ∧ up' = up := by
  constructor
  · intro hr
    obtain ⟨rfl, rfl⟩ := hr.unique (.out h)
    exact ⟨rfl, rfl⟩
  · rintro ⟨rfl, rfl⟩
    exact .out h

/-- **What `read_cb` does** for an unpacker that waits: it goes through the bytes with those just
received, or waits on when there are none, or drops one byte. -/
theorem readCbAll_eq_some_iff {up up' : Unpacker} (h : UnpackerWaits up) {r : ReadResult}
    {objs : List Obj} :
    readCbAll up r = some (objs, up') ↔
      match r with
      | .bytes bs => Reads (up.feed bs) objs up'
      | .error => up.buf ≠ [] ∧ objs = [] ∧ up' = ⟨up.ctx, up.buf.dropLast⟩ := by
  unfold readCbAll
  cases r with
  | bytes bs =>
      cases bs with
      | nil =>
          dsimp only
          rw [Unpacker.feed_nil, h.reads]
          simp [readReceived, eq_comm]
      | cons b bs => exact readLoop_rounds_iff
  | error =>
      dsimp only
      cases hbuf : up.buf with
      | nil => simp [readReceived, hbuf]
      | cons b bs =>
          have hdrop := h.dropLast
          rw [hbuf] at hdrop
          simp only [readReceived, hbuf, Option.bind_some, ne_eq, reduceCtorEq, not_false_eq_true,
            true_and]
          rw [readLoop_rounds_iff, hdrop.reads]

theorem UnpackerWaits.readCbAll {up up' : Unpacker} (h : UnpackerWaits up) {r : ReadResult}
    {objs : List Obj} (hr : readCbAll up r = some (objs, up')) : UnpackerWaits up' := by
  rw [readCbAll_eq_some_iff h] at hr
  cases r with
  | bytes bs => exact Reads.spin_eq_none hr
  | error => exact hr.2.2 ▸ h.dropLast

/-! ## The reader returns -/

/-- Each of these calls of `read_cb` returns. -/
def AllReturn : Unpacker → List ReadResult → Prop
  | _, [] => True
  | up, r :: rs => ∃ n objs up', readCb n up r = some (objs, up') ∧ AllReturn up' rs

/-- No object or element of one begins with a byte that none begins with; and `read` does not
fail when no byte is left to read. -/
def HarmlessRead (up : Unpacker) : ReadResult → Prop
  | .bytes bs => ¬ MeetsInvalid (up.feed bs)
  | .error => up.buf ≠ []

/-- The unpacker after `read_cb`, if that returns. -/
def readStep (up : Unpacker) (r : ReadResult) : Option Unpacker := (readCbAll up r).map Prod.snd

theorem exists_readCbAll_iff {up : Unpacker} (h : UnpackerWaits up) (r : ReadResult) :
    (∃ objs up', readCbAll up r = some (objs, up')) ↔ HarmlessRead up r := by
  simp only [readCbAll_eq_some_iff h]
  cases r with
  | bytes bs => exact exists_reads_iff _
  | error => exact ⟨fun ⟨_, _, hbuf, _⟩ => hbuf, fun hbuf => ⟨_, _, hbuf, rfl, rfl⟩⟩

theorem allReturn_iff_of_unpackerWaits {up : Unpacker} (h : UnpackerWaits up)
    (rs : List ReadResult) :
    AllReturn up rs ↔ StepsMeet readStep HarmlessRead up rs := by
  induction rs generalizing up with
  | nil => exact iff_of_true trivial trivial
  | cons r rs ih =>
      unfold AllReturn StepsMeet
      rw [← exists_readCbAll_iff h]
      constructor
      · rintro ⟨n, objs, up', hr, hrest⟩
        have hall := readCb_iff.mp ⟨n, hr⟩
        refine ⟨⟨objs, up', hall⟩, fun up'' hup => ?_⟩
        obtain ⟨⟨objs', _⟩, hall', rfl⟩ := Option.map_eq_some_iff.mp hup
        obtain ⟨-, rfl⟩ := Prod.mk.inj (Option.some.inj (hall.symm.trans hall'))
        exact (ih (h.readCbAll hall)).mp hrest
      · rintro ⟨⟨objs, up', hall⟩, hrest⟩
        obtain ⟨n, hr⟩ := readCb_iff.mpr hall
        refine ⟨n, objs, up', hr, (ih (h.readCbAll hall)).mpr (hrest up' ?_)⟩
        exact Option.map_eq_some_iff.mpr ⟨(objs, up'), hall, rfl⟩

/-- **The reader returns**, exactly: every call for a sequence of read results does if and only
if each result is harmless when it comes. -/
theorem allReturn_iff (rs : List ReadResult) :
    AllReturn .fresh rs ↔ StepsMeet readStep HarmlessRead .fresh rs :=
  allReturn_iff_of_unpackerWaits unpackerWaits_fresh rs

/-- A byte that no object begins with, and a failed `read` of a client that has sent nothing. -/
theorem not_allReturn_reserved :
    ¬ AllReturn .fresh [.bytes [0xc1]] ∧ ¬ AllReturn .fresh [.error] := by
  rw [allReturn_iff_of_unpackerWaits unpackerWaits_fresh,
    allReturn_iff_of_unpackerWaits unpackerWaits_fresh]
  constructor
  · intro h
    exact h.1 (.here (by decide))
  · intro h
    exact h.1 rfl

/-! ## Clients, one after the other -/

/-- `struct cli_app`: the unpacker, whether there is a client, and what was passed to
`tcsip_ob_cmd` since it connected. -/
structure CliApp where
  up : Unpacker
  client : Bool
  session : List Obj

/-- The driver before the first client. -/
def CliApp.init : CliApp := ⟨.fresh, false, []⟩

/-- A connection comes in, or the client can be read. -/
inductive DriverEvent where
  | accept
  | read (r : ReadResult)

/-- `accept_cb` turns a second client away; `read_cb` is called while there is a client, and
closes it at the end of the stream. -/
def driverStep (app : CliApp) : DriverEvent → Option CliApp
  | .accept => if app.client then some app else some { app with client := true, session := [] }
  | .read r =>
    if app.client then
      (readCbAll app.up r).map fun (objs, up) =>
        { up := up
          client := match r with
            | .bytes [] => false
            | _ => true
          session := app.session ++ objs }
    else none

/-- The objects that the bytes `b` alone come to. -/
def DecodesBytes (b : List Byte) (objs : List Obj) : Prop :=
  ∃ up, Reads (Unpacker.fresh.feed b) objs up

/-- The events of a client that connects and whose bytes are read in these pieces. -/
def sessionEvents (chunks : List (List Byte)) : List DriverEvent :=
  .accept :: chunks.map fun c => .read (.bytes c)

/-- For the next client, whatever it sends and however it is read, the objects are those that its
bytes alone come to. -/
def DecodesAlone (app : CliApp) : Prop :=
  ∀ b objs, DecodesBytes b objs → ∀ chunks : List (List Byte), [] ∉ chunks → chunks.flatten = b →
    (run driverStep app (sessionEvents chunks)).map CliApp.session = some objs

theorem unpackerWaits_of_run {app app' : CliApp} {es : List DriverEvent} (h : UnpackerWaits app.up)
    (hrun : run driverStep app es = some app') : UnpackerWaits app'.up := by
  refine run_invariant driverStep (I := fun app => UnpackerWaits app.up) (C := fun _ _ => True) ?_ h
    (stepsMeet_of_forall _ (fun _ _ => trivial) _ _) hrun
  intro app e app' h _ hs
  cases e with
  | accept =>
      unfold driverStep at hs
      split_ifs at hs <;> obtain rfl := Option.some.inj hs <;> exact h
  | read r =>
      obtain ⟨-, hs⟩ := Option.ite_none_right_eq_some.mp hs
      obtain ⟨⟨objs, up⟩, hr, rfl⟩ := Option.map_eq_some_iff.mp hs
      exact h.readCbAll hr

/-! ### A fresh unpacker -/

/-- **Reading in pieces** comes to what reading at once does. -/
theorem session_of_reads (app : CliApp) {chunks : List (List Byte)} {objs : List Obj}
    {up' : Unpacker} (h : UnpackerWaits app.up) (hclient : app.client = true) (hne : [] ∉ chunks)
    (hr : Reads (app.up.feed chunks.flatten) objs up') :
    (run driverStep app (chunks.map fun c => .read (.bytes c))).map CliApp.session =
      some (app.session ++ objs) := by
  induction chunks generalizing app objs with
  | nil =>
      rw [List.flatten_nil, Unpacker.feed_nil, h.reads] at hr
      rw [hr.1, List.append_nil]
      rfl
  | cons c chunks ih =>
      rw [List.flatten_cons, Unpacker.feed_append] at hr
      obtain ⟨objs₁, up₁, objs₂, hfirst, hrest, rfl⟩ := hr.split
      have hcb : readCbAll app.up (.bytes c) = some (objs₁, up₁) :=
        (readCbAll_eq_some_iff h).mpr hfirst
      have hc : c ≠ [] := fun hnil => hne (hnil ▸ List.mem_cons_self)
      have hstep : driverStep app (.read (.bytes c)) =
          some ⟨up₁, true, app.session ++ objs₁⟩ := by
        cases c with
        | nil => exact absurd rfl hc
        | cons b bs =>
            unfold driverStep
            dsimp only
            rw [if_pos hclient, hcb]
            rfl
      have hnext := ih ⟨up₁, true, app.session ++ objs₁⟩ (h.readCbAll hcb) rfl
        (fun hmem => hne (List.mem_cons_of_mem _ hmem)) hrest
      rw [List.map_cons, run_cons, hstep, Option.bind_some, hnext, List.append_assoc]

/-! ### An unpacker that is not fresh -/

/-- What a push completes is the pushed object itself, or a container. -/
theorem push_root {ob r : Obj} {stack : List Frame} (h : push ob stack = .root r)
    (hne : stack ≠ [] ∨ ob ≠ .nil) : r ≠ .nil := by
  induction stack generalizing ob with
  | nil =>
      obtain rfl := Pushed.root.inj h
      exact hne.resolve_left fun hnil => hnil rfl
  | cons f stack ih =>
      cases f with
      | arrayItem l more =>
          cases more with
          | zero => exact ih h (Or.inr (by simp))
          | succ more => exact Pushed.noConfusion h
      | mapKey l more => exact Pushed.noConfusion h
      | mapValue l more key =>
          cases more with
          | zero => exact ih h (Or.inr (by simp))
          | succ more => exact Pushed.noConfusion h

/-- What follows a header is no nil. -/
theorem trailAction_ne_nil (kind : TrailKind) (n : List Byte) :
    trailAction kind n ≠ .value .nil := by
  cases kind with
  | raw16 | raw32 =>
      unfold trailAction rawAction
      dsimp only
      split_ifs <;> simp
  | _ => simp [trailAction]

/-- So a turn completes no nil, but by taking the header of one with nothing on the stack. -/
theorem perform_finish_ne_nil {stack : List Frame} {last rest rest' : List Byte} {a : Action}
    {r : Obj} (h : perform stack last rest a = .finish r rest')
    (hne : stack ≠ [] ∨ a ≠ .value .nil) : r ≠ .nil := by
  have hturn : ∀ {p : Pushed}, p.turn rest = .finish r rest' → p = .root r := by
    intro p hp
    cases p with
    | root ob => rw [(Turn.finish.inj hp).1]
    | stacked stack => exact Turn.noConfusion hp
  cases a with
  | value ob =>
      exact push_root (hturn h) (hne.imp_right fun hval heq => hval (heq ▸ rfl))
  | trail kind => exact Turn.noConfusion h
  | container isMap count =>
      unfold perform at h
      dsimp only at h
      split at h
      · exact Turn.noConfusion h
      · cases count with
        | zero =>
            exact push_root (hturn h) (Or.inr (by cases isMap <;> simp [emptyObj]))
        | succ more => exact Turn.noConfusion h
  | failed => exact Turn.noConfusion h

theorem spin_nil (ctx : Ctx) : spin ⟨ctx, []⟩ = none := by
  obtain ⟨cs, stack⟩ := ctx
  cases cs <;> rfl

/-- The byte of a nil. -/
theorem reads_nil : Reads ⟨.fresh, [0xc0]⟩ [.nil] .fresh := by
  have hspin : spin ⟨.fresh, [0xc0]⟩ = some ([.nil], .fresh) := rfl
  exact .step hspin (.out rfl)

theorem decodesBytes_nil : DecodesBytes [0xc0] [.nil] := ⟨.fresh, reads_nil⟩

/-- A turn that takes `0xc0` last comes to no object, to one that is no nil, or to two. -/
theorem not_reads_nil {up up' : Unpacker} (stack : List Frame) (a : Action)
    (hspin : spin up = (perform stack [0xc0] [] a).result stack)
    (hne : stack ≠ [] ∨ a ≠ .value .nil) : ¬ Reads up [.nil] up' := by
  intro hr
  rcases perform_cases stack [0xc0] [] a with ⟨h, -⟩ | ⟨ob, h⟩ | ⟨ctx, h⟩
  · -- what there was is handed on, and the byte is read again
    rw [h] at hspin
    have htwo := (hr.unique (.step hspin reads_nil)).1
    exact absurd (congrArg List.length htwo) (by simp)
  · rw [h] at hspin
    have hone := (hr.unique (.step hspin (.out (spin_nil _)))).1
    exact perform_finish_ne_nil h hne (List.cons.inj hone).1.symm
  · rw [h] at hspin
    have hnone := (hr.unique (.step hspin (.out (spin_nil _)))).1
    exact absurd hnone (by simp)

/-- **One byte tells**: only a fresh unpacker makes the single object nil of `0xc0`. -/
theorem eq_fresh_of_reads_nil {up up' : Unpacker} (h : UnpackerWaits up)
    (hr : Reads (up.feed [0xc0]) [.nil] up') : up = .fresh := by
  rw [unpackerWaits_iff] at h
  obtain ⟨⟨cs, stack⟩, buf⟩ := up
  rcases h with ⟨hcs, hbuf⟩ | ⟨kind, hcs, hlt⟩
  · dsimp only at hcs hbuf
    subst hcs hbuf
    by_cases hstack : stack = []
    · rw [hstack]
      rfl
    · exact absurd hr (not_reads_nil stack (.value .nil) rfl (Or.inl hstack))
  · dsimp only at hcs hlt
    subst hcs
    have hspin : spin (Unpacker.feed ⟨⟨.trail kind, stack⟩, buf⟩ [0xc0]) =
        (turn ⟨.trail kind, stack⟩ (buf ++ [0xc0])).result stack := rfl
    rw [turn_trail] at hspin
    split_ifs at hspin with hshort
    · -- still too few
      have hnone := (hr.unique (.out hspin)).1
      exact absurd hnone (by simp)
    · rw [List.length_append, List.length_singleton] at hshort
      have hlen : kind.len - 1 = buf.length := by omega
      have hall : (buf ++ [(0xc0 : Byte)]).length ≤ kind.len := by
        rw [List.length_append, List.length_singleton]
        omega
      rw [hlen, List.drop_left, List.drop_of_length_le hall] at hspin
      exact absurd hr (not_reads_nil stack _ hspin (Or.inr (trailAction_ne_nil kind _)))

/-- **Sessions are independent**, exactly: after any clients that came and went, the next client
is decoded alone if and only if they leave the unpacker fresh, with no object begun and no byte
unread. -/
theorem decodesAlone_iff (es : List DriverEvent) {app : CliApp}
    (hrun : run driverStep .init es = some app) (hfree : app.client = false) :
    DecodesAlone app ↔ app.up = .fresh := by
  have hwait : UnpackerWaits app.up := unpackerWaits_of_run unpackerWaits_fresh hrun
  have hsession : ∀ chunks, run driverStep app (sessionEvents chunks) =
      run driverStep ⟨app.up, true, []⟩ (chunks.map fun c => .read (.bytes c)) := by
    intro chunks
    rw [sessionEvents, run_cons, driverStep, hfree]
    rfl
  constructor
  · intro h
    have hlaw := h [0xc0] [.nil] decodesBytes_nil [[0xc0]] (by simp) rfl
    rw [hsession] at hlaw
    obtain ⟨app', hrun', hobjs⟩ := Option.map_eq_some_iff.mp hlaw
    obtain ⟨app₁, hs, hend⟩ := (run_cons_eq_some driverStep).mp hrun'
    obtain rfl := Option.some.inj hend
    obtain ⟨⟨objs, up⟩, hcb, rfl⟩ := Option.map_eq_some_iff.mp hs
    have hone : objs = [.nil] := hobjs
    subst hone
    exact eq_fresh_of_reads_nil hwait ((readCbAll_eq_some_iff hwait).mp hcb)
  · intro hup b objs ⟨up', hr⟩ chunks hne hflat
    rw [hsession]
    exact session_of_reads _ hwait rfl hne (by rw [hup, hflat]; exact hr)

/-- A client that sends a whole message and leaves. -/
theorem decodesAlone_iff_wholeMessage :
    ∃ app, run driverStep .init [.accept, .read (.bytes [0x91, 0x01]), .read (.bytes [])] =
        some app ∧
      (DecodesAlone app ↔ app.up = .fresh) :=
  ⟨_, rfl, decodesAlone_iff [.accept, .read (.bytes [0x91, 0x01]), .read (.bytes [])] rfl rfl⟩

/-- A client that announces two elements, sends one and leaves; the next one sends a nil, which
becomes the second element. -/
theorem next_client_completes_message :
    ∃ app, run driverStep .init [.accept, .read (.bytes [0x92, 0x01]), .read (.bytes [])] =
        some app ∧
      app.client = false ∧ DecodesBytes [0xc0] [.nil] ∧
      (run driverStep app (sessionEvents [[0xc0]])).map CliApp.session =
        some [.array [.integer 1, .nil]] ∧
      ¬ DecodesAlone app := by
  refine ⟨_, rfl, rfl, decodesBytes_nil, rfl, fun h => ?_⟩
  have hlaw := h [0xc0] [.nil] decodesBytes_nil [[0xc0]] (by simp) rfl
  exact absurd (List.cons.inj (Option.some.inj hlaw)).1 (by simp)
