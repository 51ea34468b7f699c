/-
# The incremental parser of msgpack

`_execute` of `unpack_template.h` reads objects from bytes that arrive piece by piece.  Between
two calls it keeps in its context what it waits for, a header or the bytes that belong to the
last one, and a stack of the arrays and maps that are not complete.  The reader calls it again
and again (`readLoop`): an object that is complete is handed on, and so is what there is of one
that cannot go on, and the context begins anew.  The bytes stay where they are: after a failure
in a header the reader meets the same byte again.

`Reads` says what a run of the loop does, turn by turn, and the loop returns exactly what it
says (`readLoop_rounds_iff`).  Bytes may come in any pieces (`Reads.append`).  The loop comes to an
end unless it meets a byte that no object begins with (`exists_reads_iff`).

Memory is never short here.
-/
import Tcsip.BigEndian
import Tcsip.Msgpack

open BigEndian

namespace Msgpack

/-! ## Headers and what follows them -/

/-- What may follow a header: a number, the length of something, or the bytes of a raw. -/
inductive TrailKind where
  | float
  | double
  | uint8
  | uint16
  | uint32
  | uint64
  | int8
  | int16
  | int32
  | int64
  | raw16
  | raw32
  | array16
  | array32
  | map16
  | map32
  | raw (len : ℕ+)
  deriving DecidableEq

/-- `trail`: the number of bytes. -/
def TrailKind.len : TrailKind → ℕ
  | .uint8 | .int8 => 1
  | .uint16 | .int16 | .raw16 | .array16 | .map16 => 2
  | .float | .uint32 | .int32 | .raw32 | .array32 | .map32 => 4
  | .double | .uint64 | .int64 => 8
  | .raw len => len

theorem TrailKind.len_pos (kind : TrailKind) : 0 < kind.len := by
  cases kind with
  | raw len => exact len.pos
  | _ => simp [TrailKind.len]

/-- What a header, or what follows it, asks for. -/
inductive Action where
  | value (ob : Obj)
  | trail (kind : TrailKind)
  | container (isMap : Bool) (count : ℕ)
  | failed

/-- `again_fixed_trail_if_zero` for a raw of `n` bytes. -/
def rawAction (n : ℕ) : Action := if h : 0 < n then .trail (.raw ⟨n, h⟩) else .value (.raw [])

/-- The bytes from `0xc0` to `0xdf`. -/
def variableAction (b : ℕ) : Action :=
  match b with
  | 0xc0 => .value .nil
  | 0xc2 => .value (.boolean false)
  | 0xc3 => .value (.boolean true)
  | 0xca => .trail .float
  | 0xcb => .trail .double
  | 0xcc => .trail .uint8
  | 0xcd => .trail .uint16
  | 0xce => .trail .uint32
  | 0xcf => .trail .uint64
  | 0xd0 => .trail .int8
  | 0xd1 => .trail .int16
  | 0xd2 => .trail .int32
  | 0xd3 => .trail .int64
  | 0xda => .trail .raw16
  | 0xdb => .trail .raw32
  | 0xdc => .trail .array16
  | 0xdd => .trail .array32
  | 0xde => .trail .map16
  | 0xdf => .trail .map32
  | _ => .failed

/-- `case CS_HEADER`. -/
def headerAction (b : Byte) : Action :=
  if b.val < 0x80 then .value (.integer b.val)
  else if b.val < 0x90 then .container true (b.val % 16)
  else if b.val < 0xa0 then .container false (b.val % 16)
  else if b.val < 0xc0 then rawAction (b.val % 32)
  else if b.val < 0xe0 then variableAction b.val
  else .value (.integer ((b.val : ℤ) - 256))

/-- The cases of the bytes that follow a header. -/
def trailAction (kind : TrailKind) (n : List Byte) : Action :=
  match kind with
  | .float => .value (.double (Float32.ofBits (UInt32.ofNat (ofBe n))).toFloat.toBits)
  | .double => .value (.double (UInt64.ofNat (ofBe n)))
  | .uint8 | .uint16 | .uint32 | .uint64 => .value (.integer (ofBe n))
  | .int8 => .value (.integer ((ofBe n : ℤ).bmod (2 ^ 8)))
  | .int16 => .value (.integer ((ofBe n : ℤ).bmod (2 ^ 16)))
  | .int32 => .value (.integer ((ofBe n : ℤ).bmod (2 ^ 32)))
  | .int64 => .value (.integer ((ofBe n : ℤ).bmod (2 ^ 64)))
  | .raw16 | .raw32 => rawAction (ofBe n)
  | .array16 | .array32 => .container false (ofBe n)
  | .map16 | .map32 => .container true (ofBe n)
  | .raw _ => .value (.raw n)

/-! ## The stack -/

/-- `struct stack`: an array or a map with what it holds so far, and the number of elements that
are to come after the next one.  In a map the next element is a key or the value for one. -/
inductive Frame where
  | arrayItem (l : List Obj) (more : ℕ)
  | mapKey (l : List (Obj × Obj)) (more : ℕ)
  | mapValue (l : List (Obj × Obj)) (more : ℕ) (key : Obj)

/-- The object of a frame, as far as it goes. -/
def Frame.obj : Frame → Obj
  | .arrayItem l _ => .array l
  | .mapKey l _ => .map l
  | .mapValue l _ _ => .map l

/-- An array or a map without elements. -/
def emptyObj (isMap : Bool) : Obj := if isMap then .map [] else .array []

/-- An array or a map that waits for its first element. -/
def newFrame (isMap : Bool) (more : ℕ) : Frame :=
  if isMap then .mapKey [] more else .arrayItem [] more

/-- `MSGPACK_EMBED_STACK_SIZE`. -/
def embedStackSize : ℕ := 32

/-- The result of `_push`: the whole object is complete, or more elements are needed. -/
inductive Pushed where
  | root (ob : Obj)
  | stacked (stack : List Frame)

/-- `_push`: an object goes into the innermost container, which may complete it. -/
def push : Obj → List Frame → Pushed
  | ob, [] => .root ob
  | ob, .arrayItem l more :: stack =>
    match more with
    | 0 => push (.array (l ++ [ob])) stack
    | more + 1 => .stacked (.arrayItem (l ++ [ob]) more :: stack)
  | ob, .mapKey l more :: stack => .stacked (.mapValue l more ob :: stack)
  | ob, .mapValue l more key :: stack =>
    match more with
    | 0 => push (.map (l ++ [(key, ob)])) stack
    | more + 1 => .stacked (.mapKey (l ++ [(key, ob)]) more :: stack)

/-- `msgpack_unpacker_data` before an object is complete: what there is of the outermost
container, or nil. -/
def stackData (stack : List Frame) : Obj := (stack.getLast?.map Frame.obj).getD .nil

/-! ## One turn of the parser -/

/-- `cs` and `trail`. -/
inductive Cs where
  | header
  | trail (kind : TrailKind)
  deriving DecidableEq

/-- The context, with the innermost container first. -/
structure Ctx where
  cs : Cs
  stack : List Frame

/-- The context after `_init`. -/
def Ctx.fresh : Ctx := ⟨.header, []⟩

/-- The outcome of a turn, with the bytes that are left. -/
inductive Turn where
  | out
  | failed (rest : List Byte)
  | finish (ob : Obj) (rest : List Byte)
  | next (ctx : Ctx) (rest : List Byte)

/-- What a turn comes to after `_push`. -/
def Pushed.turn (rest : List Byte) : Pushed → Turn
  | .root ob => .finish ob rest
  | .stacked stack => .next ⟨.header, stack⟩ rest

/-- A turn does what the header, or what follows it, asks for.  `last` begins with the last byte
that was looked at, where a failure leaves the reader. -/
def perform (stack : List Frame) (last rest : List Byte) : Action → Turn
  | .value ob => (push ob stack).turn rest
  | .trail kind => .next ⟨.trail kind, stack⟩ rest
  | .container isMap count =>
    if embedStackSize ≤ stack.length then .failed last
    else
      match count with
      | 0 => (push (emptyObj isMap) stack).turn rest
      | more + 1 => .next ⟨.header, newFrame isMap more :: stack⟩ rest
  | .failed => .failed last

/-- A turn of the loop of `_execute`: it takes a header, or what follows it. -/
def turn (ctx : Ctx) (buf : List Byte) : Turn :=
  match ctx.cs, buf with
  | _, [] => .out
  | .header, b :: rest => perform ctx.stack (b :: rest) rest (headerAction b)
  | .trail kind, b :: rest =>
    let buf := b :: rest
    if buf.length < kind.len then .out
    else perform ctx.stack (buf.drop (kind.len - 1)) (buf.drop kind.len)
      (trailAction kind (buf.take kind.len))

theorem turn_trail (kind : TrailKind) (stack : List Frame) (buf : List Byte) :
    turn ⟨.trail kind, stack⟩ buf =
      if buf.length < kind.len then .out
      else perform stack (buf.drop (kind.len - 1)) (buf.drop kind.len)
        (trailAction kind (buf.take kind.len)) := by
  cases buf with
  | nil => exact (if_pos kind.len_pos).symm
  | cons b rest => rfl

/-- `msgpack_unpacker`: the context, and the bytes that were received and not read yet. -/
structure Unpacker where
  ctx : Ctx
  buf : List Byte

/-- The unpacker before anything was received. -/
def Unpacker.fresh : Unpacker := ⟨.fresh, []⟩

/-! ## The loops -/

/-- The outcome of `_execute`: 0, -1 or 1, and what `msgpack_unpacker_data` finds. -/
inductive Executed where
  | out (up : Unpacker)
  | failed (ob : Obj) (rest : List Byte)
  | finish (ob : Obj) (rest : List Byte)

/-- The loop of `_execute`, for so many turns at most. -/
def executeLoop : ℕ → Ctx → List Byte → Executed
  | 0, ctx, buf => .out ⟨ctx, buf⟩
  | n + 1, ctx, buf =>
    match turn ctx buf with
    | .out => .out ⟨ctx, buf⟩
    | .failed rest => .failed (stackData ctx.stack) rest
    | .finish ob rest => .finish ob rest
    | .next ctx rest => executeLoop n ctx rest

/-- `msgpack_unpacker_execute`: every turn takes a byte, so that these turns are enough. -/
def execute (up : Unpacker) : Executed := executeLoop (up.buf.length + 1) up.ctx up.buf

/-- The loop of `read_cb` from `restart` on, for so many rounds at most: the objects passed to
`tcsip_ob_cmd`, and the unpacker that is left.  A result of -1 is not 0. -/
def readLoop : ℕ → Unpacker → Option (List Obj × Unpacker)
  | 0, _ => none
  | n + 1, up =>
    match execute up with
    | .out up => some ([], up)
    | .failed ob rest | .finish ob rest =>
      (readLoop n ⟨.fresh, rest⟩).map fun r => (ob :: r.1, r.2)

/-- What the loop makes of a turn: what is passed to `tcsip_ob_cmd`, and the unpacker after it.
There is none if more bytes are needed. -/
def Turn.result (stack : List Frame) : Turn → Option (List Obj × Unpacker)
  | .out => none
  | .failed rest => some ([stackData stack], ⟨.fresh, rest⟩)
  | .finish ob rest => some ([ob], ⟨.fresh, rest⟩)
  | .next ctx rest => some ([], ⟨ctx, rest⟩)

/-- A turn of the parser and, at the end of an object, of the loop around it. -/
def spin (up : Unpacker) : Option (List Obj × Unpacker) :=
  (turn up.ctx up.buf).result up.ctx.stack

/-- Turns until more bytes are needed. -/
inductive Reads : Unpacker → List Obj → Unpacker → Prop
  | out {up : Unpacker} (h : spin up = none) : Reads up [] up
  | step {up up' up'' : Unpacker} {obs objs : List Obj} (h : spin up = some (obs, up'))
      (hr : Reads up' objs up'') : Reads up (obs ++ objs) up''

theorem Reads.unique {up up' up'' : Unpacker} {objs objs' : List Obj} (h : Reads up objs up')
    (h' : Reads up objs' up'') : objs = objs' ∧ up' = up'' := by
  induction h generalizing objs' with
  | out hout =>
      cases h' with
      | out _ => exact ⟨rfl, rfl⟩
      | step hs _ => exact absurd (hout.symm.trans hs) (by simp)
  | step hs _ ih =>
      cases h' with
      | out hout => exact absurd (hout.symm.trans hs) (by simp)
      | step hs' hr' =>
          obtain ⟨rfl, rfl⟩ := Prod.mk.inj (Option.some.inj (hs.symm.trans hs'))
          obtain ⟨rfl, rfl⟩ := ih hr'
          exact ⟨rfl, rfl⟩

/-- What is left cannot go on without more bytes. -/
theorem Reads.spin_eq_none {up up' : Unpacker} {objs : List Obj} (h : Reads up objs up') :
    spin up' = none := by
  induction h with
  | out hout => exact hout
  | step _ _ ih => exact ih

/-! ## What a turn can do -/

/-- No object begins with this byte. -/
def NoHeader (b : Byte) : Prop :=
  b.val = 0xc1 ∨ 0xc4 ≤ b.val ∧ b.val ≤ 0xc9 ∨ 0xd4 ≤ b.val ∧ b.val ≤ 0xd9

instance (b : Byte) : Decidable (NoHeader b) := inferInstanceAs (Decidable (_ ∨ _))

/-- The action is a failure. -/
def Action.isFailed : Action → Bool
  | .failed => true
  | _ => false

theorem isFailed_headerAction (b : Byte) : (headerAction b).isFailed = decide (NoHeader b) := by
  revert b
  decide +kernel

theorem headerAction_eq_failed_iff {b : Byte} : headerAction b = .failed ↔ NoHeader b := by
  have hfailed := isFailed_headerAction b
  cases hact : headerAction b with
  | failed =>
      rw [hact] at hfailed
      exact iff_of_true rfl (of_decide_eq_true hfailed.symm)
  | value _ | trail _ | container _ _ =>
      rw [hact] at hfailed
      exact iff_of_false (by simp) (of_decide_eq_false hfailed.symm)

theorem Pushed.turn_cases (p : Pushed) (rest : List Byte) :
    (∃ ob, p.turn rest = .finish ob rest) ∨ ∃ ctx, p.turn rest = .next ctx rest := by
  cases p with
  | root ob => exact Or.inl ⟨ob, rfl⟩
  | stacked stack => exact Or.inr ⟨_, rfl⟩

/-- A new container, when the stack is not full. -/
theorem perform_container {stack : List Frame} (h : stack.length < embedStackSize)
    (last rest : List Byte) (isMap : Bool) (count : ℕ) :
    perform stack last rest (.container isMap count) =
      match count with
      | 0 => (push (emptyObj isMap) stack).turn rest
      | more + 1 => .next ⟨.header, newFrame isMap more :: stack⟩ rest :=
  if_neg (not_le.mpr h)

/-- A failure leaves the last byte that was looked at, anything else what comes behind it. -/
theorem perform_cases (stack : List Frame) (last rest : List Byte) (a : Action) :
    (perform stack last rest a = .failed last ∧ (a = .failed ∨ stack ≠ [])) ∨
      (∃ ob, perform stack last rest a = .finish ob rest) ∨
        ∃ ctx, perform stack last rest a = .next ctx rest := by
  cases a with
  | value ob => exact Or.inr (Pushed.turn_cases _ rest)
  | trail kind => exact Or.inr (Or.inr ⟨_, rfl⟩)
  | container isMap count =>
      by_cases hdeep : embedStackSize ≤ stack.length
      · refine Or.inl ⟨if_pos hdeep, Or.inr fun hnil => ?_⟩
        rw [hnil] at hdeep
        exact absurd hdeep (by decide)
      · rw [perform_container (not_le.mp hdeep)]
        cases count with
        | zero => exact Or.inr (Pushed.turn_cases _ rest)
        | succ more => exact Or.inr (Or.inr ⟨_, rfl⟩)
  | failed => exact Or.inl ⟨rfl, Or.inl rfl⟩

/-- **What a turn can do.**  It takes a byte, unless it waits, or fails.  It fails inside an
object, or at a byte that no object begins with. -/
theorem turn_cases (ctx : Ctx) (buf : List Byte) :
    turn ctx buf = .out ∨
      (∃ rest, turn ctx buf = .failed rest ∧ rest.length ≤ buf.length ∧
        (ctx = .fresh → ∃ b tail, buf = b :: tail ∧ NoHeader b)) ∨
      (∃ ob rest, turn ctx buf = .finish ob rest ∧ rest.length < buf.length) ∨
        ∃ ctx' rest, turn ctx buf = .next ctx' rest ∧ rest.length < buf.length := by
  obtain ⟨cs, stack⟩ := ctx
  cases cs with
  | header =>
      cases buf with
      | nil => exact Or.inl rfl
      | cons b tail =>
          have hlt : tail.length < (b :: tail).length := Nat.lt_succ_self _
          rcases perform_cases stack (b :: tail) tail (headerAction b) with
            ⟨h, hwhy⟩ | ⟨ob, h⟩ | ⟨ctx', h⟩
          · refine Or.inr (Or.inl ⟨b :: tail, h, le_rfl, fun hfresh => ⟨b, tail, rfl, ?_⟩⟩)
            have hnil : stack = [] := (Ctx.mk.inj hfresh).2
            exact headerAction_eq_failed_iff.mp (hwhy.resolve_right (not_not.mpr hnil))
          · exact Or.inr (Or.inr (Or.inl ⟨ob, tail, h, hlt⟩))
          · exact Or.inr (Or.inr (Or.inr ⟨ctx', tail, h, hlt⟩))
  | trail kind =>
      rw [turn_trail]
      by_cases hshort : buf.length < kind.len
      · exact Or.inl (if_pos hshort)
      · rw [if_neg hshort]
        have hpos := kind.len_pos
        have hlt : (buf.drop kind.len).length < buf.length := by
          rw [List.length_drop]
          omega
        rcases perform_cases stack (buf.drop (kind.len - 1)) (buf.drop kind.len)
          (trailAction kind (buf.take kind.len)) with ⟨h, -⟩ | ⟨ob, h⟩ | ⟨ctx', h⟩
        · refine Or.inr (Or.inl ⟨_, h, ?_, fun hfresh => ?_⟩)
          · rw [List.length_drop]
            exact Nat.sub_le _ _
          · exact absurd (Ctx.mk.inj hfresh).1 (by simp)
        · exact Or.inr (Or.inr (Or.inl ⟨ob, _, h, hlt⟩))
        · exact Or.inr (Or.inr (Or.inr ⟨ctx', _, h, hlt⟩))

theorem length_of_turn_next {ctx ctx' : Ctx} {buf rest : List Byte}
    (h : turn ctx buf = .next ctx' rest) : rest.length < buf.length := by
  rcases turn_cases ctx buf with hout | ⟨_, hfail, _⟩ | ⟨_, _, hfin, _⟩ | ⟨_, _, hnext, hlt⟩
  · exact absurd (h.symm.trans hout) (by simp)
  · exact absurd (h.symm.trans hfail) (by simp)
  · exact absurd (h.symm.trans hfin) (by simp)
  · rwa [(Turn.next.inj (h.symm.trans hnext)).2]

/-- More rounds make no difference. -/
theorem executeLoop_eq {n : ℕ} {ctx : Ctx} {buf : List Byte} (h : buf.length < n) :
    executeLoop n ctx buf = execute ⟨ctx, buf⟩ := by
  have hsame : ∀ n m ctx (buf : List Byte), buf.length < n → buf.length < m →
      executeLoop n ctx buf = executeLoop m ctx buf := by
    intro n
    induction n with
    | zero => exact fun m ctx buf hn => absurd hn (Nat.not_lt_zero _)
    | succ n ih =>
        intro m ctx buf hn hm
        cases m with
        | zero => exact absurd hm (Nat.not_lt_zero _)
        | succ m =>
            unfold executeLoop
            cases hturn : turn ctx buf with
            | out => rfl
            | failed rest => rfl
            | finish ob rest => rfl
            | next ctx' rest =>
                have hlt := length_of_turn_next hturn
                exact ih m ctx' rest (by omega) (by omega)
  exact hsame n _ ctx buf h (Nat.lt_succ_self _)

/-- A turn of `_execute`. -/
theorem execute_eq (ctx : Ctx) (buf : List Byte) :
    execute ⟨ctx, buf⟩ =
      match turn ctx buf with
      | .out => .out ⟨ctx, buf⟩
      | .failed rest => .failed (stackData ctx.stack) rest
      | .finish ob rest => .finish ob rest
      | .next ctx rest => execute ⟨ctx, rest⟩ := by
  unfold execute
  rw [executeLoop]
  cases hturn : turn ctx buf with
  | out => rfl
  | failed rest => rfl
  | finish ob rest => rfl
  | next ctx' rest => exact executeLoop_eq (length_of_turn_next hturn)

/-- What `_execute` does, turn by turn. -/
theorem reads_execute (up : Unpacker) :
    match execute up with
    | .out up' => Reads up [] up'
    | .failed ob rest | .finish ob rest =>
      ∀ objs up', Reads ⟨.fresh, rest⟩ objs up' → Reads up (ob :: objs) up' := by
  obtain ⟨ctx, buf⟩ := up
  induction hn : buf.length using Nat.strong_induction_on generalizing ctx buf with
  | _ n ih =>
      have hspin : spin ⟨ctx, buf⟩ = (turn ctx buf).result ctx.stack := rfl
      rw [execute_eq]
      cases hturn : turn ctx buf with
      | out =>
          rw [hturn] at hspin
          exact .out hspin
      | failed rest | finish ob rest =>
          rw [hturn] at hspin
          exact fun objs up' h => .step hspin h
      | next ctx' rest =>
          rw [hturn] at hspin
          have hrest := ih rest.length (hn ▸ length_of_turn_next hturn) ctx' rest rfl
          dsimp only
          cases hexec : execute ⟨ctx', rest⟩ with
          | out up' =>
              rw [hexec] at hrest
              exact .step hspin hrest
          | failed ob tail | finish ob tail =>
              rw [hexec] at hrest
              exact fun objs up' h => .step hspin (hrest objs up' h)

/-- What the loop returns is what its turns come to. -/
theorem reads_of_readLoop {n : ℕ} {up up' : Unpacker} {objs : List Obj}
    (h : readLoop n up = some (objs, up')) : Reads up objs up' := by
  induction n generalizing up objs with
  | zero => exact absurd h (by simp [readLoop])
  | succ n ih =>
      have hexec := reads_execute up
      unfold readLoop at h
      cases hres : execute up with
      | out up'' =>
          rw [hres] at h hexec
          obtain ⟨rfl, rfl⟩ := Prod.mk.inj (Option.some.inj h)
          exact hexec
      | failed ob rest | finish ob rest =>
          rw [hres] at h hexec
          obtain ⟨⟨objs', up''⟩, hr, heq⟩ := Option.map_eq_some_iff.mp h
          obtain ⟨rfl, rfl⟩ := Prod.mk.inj heq
          exact hexec _ _ (ih hr)

/-! ## Bytes in pieces -/

/-- `read` into the buffer, and `msgpack_unpacker_buffer_consumed`. -/
def Unpacker.feed (up : Unpacker) (c : List Byte) : Unpacker := ⟨up.ctx, up.buf ++ c⟩

@[simp] theorem Unpacker.feed_nil (up : Unpacker) : up.feed [] = up := by
  unfold feed
  rw [List.append_nil]

theorem Unpacker.feed_append (up : Unpacker) (c d : List Byte) :
    up.feed (c ++ d) = (up.feed c).feed d := by
  unfold feed
  rw [List.append_assoc]

/-- The same outcome with more bytes left. -/
def Turn.feed (c : List Byte) : Turn → Turn
  | .out => .out
  | .failed rest => .failed (rest ++ c)
  | .finish ob rest => .finish ob (rest ++ c)
  | .next ctx rest => .next ctx (rest ++ c)

theorem Pushed.turn_feed (p : Pushed) (rest c : List Byte) :
    p.turn (rest ++ c) = (p.turn rest).feed c := by
  cases p <;> rfl

theorem perform_feed (stack : List Frame) (last rest c : List Byte) (a : Action) :
    perform stack (last ++ c) (rest ++ c) a = (perform stack last rest a).feed c := by
  cases a with
  | value ob => exact Pushed.turn_feed _ rest c
  | trail kind => rfl
  | container isMap count =>
      unfold perform
      dsimp only
      split_ifs
      · rfl
      · cases count with
        | zero => exact Pushed.turn_feed _ rest c
        | succ more => rfl
  | failed => rfl

/-- A turn that need not wait does not look at what comes later. -/
theorem turn_feed {ctx : Ctx} {buf : List Byte} (h : turn ctx buf ≠ .out) (c : List Byte) :
    turn ctx (buf ++ c) = (turn ctx buf).feed c := by
  obtain ⟨cs, stack⟩ := ctx
  cases buf with
  | nil => cases cs <;> exact absurd rfl h
  | cons b tail =>
      cases cs with
      | header => exact perform_feed stack (b :: tail) tail c _
      | trail kind =>
          rw [turn_trail] at h
          rw [turn_trail, turn_trail]
          split_ifs at h with hshort
          · exact absurd rfl h
          have hlen : kind.len ≤ (b :: tail).length := not_lt.mp hshort
          rw [if_neg hshort, if_neg (by rw [List.length_append]; omega),
            List.take_append_of_le_length hlen, List.drop_append_of_le_length hlen,
            List.drop_append_of_le_length ((Nat.sub_le _ _).trans hlen)]
          exact perform_feed stack _ _ c _

theorem spin_feed {up up' : Unpacker} {obs : List Obj} (h : spin up = some (obs, up'))
    (c : List Byte) : spin (up.feed c) = some (obs, up'.feed c) := by
  have hturn : turn up.ctx up.buf ≠ .out := by
    intro hout
    rw [spin, hout] at h
    exact absurd h (by simp [Turn.result])
  have hfeed : spin (up.feed c) = ((turn up.ctx up.buf).feed c).result up.ctx.stack :=
    congrArg (Turn.result up.ctx.stack) (turn_feed hturn c)
  rw [hfeed]
  unfold spin at h
  cases hres : turn up.ctx up.buf with
  | out => exact absurd hres hturn
  | failed rest | finish ob rest | next ctx rest =>
      rw [hres] at h
      obtain ⟨rfl, rfl⟩ := Prod.mk.inj (Option.some.inj h)
      rfl

/-- **Bytes in two pieces** are read as in one. -/
theorem Reads.append {up up' up'' : Unpacker} {objs objs' : List Obj} {c : List Byte}
    (h : Reads up objs up') (h' : Reads (up'.feed c) objs' up'') :
    Reads (up.feed c) (objs ++ objs') up'' := by
  induction h with
  | out _ => exact h'
  | step hs _ ih =>
      rw [List.append_assoc]
      exact .step (spin_feed hs c) (ih h')

/-! ## When the loop comes to an end -/

/-- Where an object or an element of one should begin, there is a byte that none begins with. -/
inductive MeetsInvalid : Unpacker → Prop
  | here {stack : List Frame} {b : Byte} {rest : List Byte} (h : NoHeader b) :
      MeetsInvalid ⟨⟨.header, stack⟩, b :: rest⟩
  | step {up up' : Unpacker} {obs : List Obj} (h : spin up = some (obs, up'))
      (hm : MeetsInvalid up') : MeetsInvalid up

/-- **At such a byte the loop stays**: what there is is handed on, and the byte is met again. -/
theorem spin_of_noHeader {b : Byte} (h : NoHeader b) (stack : List Frame) (rest : List Byte) :
    spin ⟨⟨.header, stack⟩, b :: rest⟩ = some ([stackData stack], ⟨.fresh, b :: rest⟩) := by
  show (perform stack (b :: rest) rest (headerAction b)).result stack = _
  rw [headerAction_eq_failed_iff.mpr h]
  rfl

theorem not_reads_of_noHeader {up up' : Unpacker} {objs : List Obj} (h : Reads up objs up')
    {stack : List Frame} {b : Byte} {rest : List Byte} (hb : NoHeader b)
    (hup : up = ⟨⟨.header, stack⟩, b :: rest⟩) : False := by
  induction h generalizing stack with
  | out hout =>
      rw [hup, spin_of_noHeader hb] at hout
      exact absurd hout (by simp)
  | step hs _ ih =>
      rw [hup, spin_of_noHeader hb] at hs
      exact ih (Prod.mk.inj (Option.some.inj hs)).2.symm

/-- The bytes that are left, and whether the context has yet to begin anew. -/
noncomputable def Unpacker.rank (up : Unpacker) : ℕ :=
  open Classical in 2 * up.buf.length + if up.ctx = .fresh then 0 else 1

/-- Every other turn makes progress. -/
theorem rank_lt_of_spin {up up' : Unpacker} {obs : List Obj} (h : spin up = some (obs, up'))
    (hvalid : ¬ MeetsInvalid up) : up'.rank < up.rank := by
  obtain ⟨ctx, buf⟩ := up
  have hfresh : ∀ rest : List Byte, (⟨.fresh, rest⟩ : Unpacker).rank = 2 * rest.length :=
    fun rest => by simp [Unpacker.rank]
  unfold spin at h
  rcases turn_cases ctx buf with hout | ⟨rest, hfail, hle, hwhy⟩ | ⟨ob, rest, hfin, hlt⟩ |
    ⟨ctx', rest, hnext, hlt⟩
  · rw [hout] at h
    exact absurd h (by simp [Turn.result])
  · rw [hfail] at h
    obtain ⟨-, rfl⟩ := Prod.mk.inj (Option.some.inj h)
    rw [hfresh]
    unfold Unpacker.rank
    -- only a byte that no object begins with makes a fresh context fail
    have hctx : ctx ≠ .fresh := by
      intro heq
      obtain ⟨b, tail, hbuf, hb⟩ := hwhy heq
      subst heq hbuf
      exact hvalid (.here hb)
    rw [if_neg hctx]
    dsimp only
    omega
  · rw [hfin] at h
    obtain ⟨-, rfl⟩ := Prod.mk.inj (Option.some.inj h)
    rw [hfresh]
    unfold Unpacker.rank
    dsimp only
    omega
  · rw [hnext] at h
    obtain ⟨-, rfl⟩ := Prod.mk.inj (Option.some.inj h)
    unfold Unpacker.rank
    dsimp only
    split_ifs <;> omega

/-- **The loop comes to an end** exactly if it does not meet a byte that no object begins
with. -/
theorem exists_reads_iff (up : Unpacker) :
    (∃ objs up', Reads up objs up') ↔ ¬ MeetsInvalid up := by
  constructor
  · rintro ⟨objs, up', h⟩ hm
    induction hm generalizing objs with
    | here hb => exact not_reads_of_noHeader h hb rfl
    | step hs _ ih =>
        cases h with
        | out hout => exact absurd (hout.symm.trans hs) (by simp)
        | step hs' hr =>
            obtain ⟨rfl, rfl⟩ := Prod.mk.inj (Option.some.inj (hs.symm.trans hs'))
            exact ih _ hr
  · intro hvalid
    induction hn : up.rank using Nat.strong_induction_on generalizing up with
    | _ n ih =>
        cases hs : spin up with
        | none => exact ⟨[], up, .out hs⟩
        | some r =>
            obtain ⟨obs, up'⟩ := r
            obtain ⟨objs, up'', hr⟩ := ih up'.rank (hn ▸ rank_lt_of_spin hs hvalid) up'
              (fun hm => hvalid (.step hs hm)) rfl
            exact ⟨obs ++ objs, up'', .step hs hr⟩

/-- So many rounds are enough for the bytes in the buffer, if any number is. -/
def rounds (up : Unpacker) : ℕ := 2 * up.buf.length + 2

theorem readLoop_of_reads {n : ℕ} {up up' : Unpacker} {objs : List Obj}
    (h : Reads up objs up') (hn : up.rank < n) : readLoop n up = some (objs, up') := by
  induction h generalizing n with
  | @out up hout =>
      obtain ⟨m, rfl⟩ := Nat.exists_eq_add_of_lt hn
      have hturn : turn up.ctx up.buf = .out := by
        unfold spin at hout
        cases hturn : turn up.ctx up.buf with
        | out => rfl
        | failed _ | finish _ _ | next _ _ =>
            rw [hturn] at hout
            exact absurd hout (by simp [Turn.result])
      rw [readLoop, execute_eq, hturn]
  | @step up up₁ up₂ obs objs hs hr ih =>
      have hvalid := (exists_reads_iff up).mp ⟨_, _, .step hs hr⟩
      have hlt := rank_lt_of_spin hs hvalid
      obtain ⟨m, rfl⟩ : ∃ m, n = m + 1 := ⟨n - 1, by omega⟩
      unfold spin at hs
      cases hturn : turn up.ctx up.buf with
      | out =>
          rw [hturn] at hs
          exact absurd hs (by simp [Turn.result])
      | failed rest | finish ob rest =>
          rw [hturn] at hs
          obtain ⟨rfl, rfl⟩ := Prod.mk.inj (Option.some.inj hs)
          rw [readLoop, execute_eq, hturn]
          dsimp only
          rw [ih (by omega)]
          rfl
      | next ctx rest =>
          rw [hturn] at hs
          obtain ⟨rfl, rfl⟩ := Prod.mk.inj (Option.some.inj hs)
          have hrest := ih (n := m + 1) (by omega)
          rw [readLoop] at hrest ⊢
          rw [execute_eq, hturn]
          exact hrest

/-- **The loop of the reader** returns what its turns come to, after at most `rounds` rounds. -/
theorem readLoop_rounds_iff {up up' : Unpacker} {objs : List Obj} :
    readLoop (rounds up) up = some (objs, up') ↔ Reads up objs up' := by
  refine ⟨reads_of_readLoop, fun h => readLoop_of_reads h ?_⟩
  unfold Unpacker.rank rounds
  split_ifs <;> omega

theorem readLoop_iff {up up' : Unpacker} {objs : List Obj} :
    (∃ n, readLoop n up = some (objs, up')) ↔ Reads up objs up' :=
  ⟨fun ⟨_, h⟩ => reads_of_readLoop h, fun h => ⟨_, readLoop_rounds_iff.mpr h⟩⟩

/-- Bytes that come later do not undo it. -/
theorem MeetsInvalid.feed {up : Unpacker} (h : MeetsInvalid up) (c : List Byte) :
    MeetsInvalid (up.feed c) := by
  induction h with
  | here hb => exact .here hb
  | step hs _ ih => exact .step (spin_feed hs c) ih

/-- **What is read as one piece** can be read in two. -/
theorem Reads.split {up up' : Unpacker} {c : List Byte} {objs : List Obj}
    (h : Reads (up.feed c) objs up') :
    ∃ objs₁ up₁ objs₂, Reads up objs₁ up₁ ∧ Reads (up₁.feed c) objs₂ up' ∧
      objs = objs₁ ++ objs₂ := by
  obtain ⟨objs₁, up₁, hfirst⟩ := (exists_reads_iff up).mpr fun hm =>
    (exists_reads_iff _).mp ⟨objs, up', h⟩ (hm.feed c)
  refine ⟨objs₁, up₁, ?_⟩
  induction hfirst generalizing objs with
  | out hout => exact ⟨objs, .out hout, h, rfl⟩
  | step hs _ ih =>
      cases h with
      | out hout => exact absurd (hout.symm.trans (spin_feed hs c)) (by simp)
      | step hs' hr =>
          obtain ⟨rfl, rfl⟩ := Prod.mk.inj (Option.some.inj (hs'.symm.trans (spin_feed hs c)))
          obtain ⟨objs₂, hreads, hrest, rfl⟩ := ih hr
          exact ⟨objs₂, .step hs hreads, hrest, (List.append_assoc _ _ _).symm⟩

end Msgpack
