/-
# The commands of the control client

`tcsip_ob_cmd` is given whatever object the control client sent.  It takes it for an array, and
if that begins with a raw, the hash of the raw says what the command is and how many elements
it has.  What type they are is not asked: each command reads its arguments from the members of
the `via` union that it expects.  Two commands call `sippuser_by_name` and go on with the
address, also if there is none.

A read of a member that the object does not have, of an element behind the array or of an
address that was not made has no result (`none`).  The main result says for which objects there
is a result: those whose arguments fit the signature of the command.
-/
import Tcsip.Msgpack
import Tcsip.Driver

namespace Commands

/-! ## The code -/

/-- `enum ipc_command`. -/
inductive IpcCommand where
  | sipOnline
  | sipUuid
  | sipApns
  | sipCallPlace
  | sipCallControl
  | sipMe
  | sendMessage
  | certGet
  | histFetch
  | contactsFetch
  | apiLoginPhone
  | apiSignup
  deriving DecidableEq

/-- The hash of the command's name, which the cases of `tcsip_ob_cmd` are labelled with. -/
def IpcCommand.value : IpcCommand → ℕ
  | .sipOnline => 0x0fdb
  | .sipUuid => 0x01b4
  | .sipApns => 0x00e8
  | .sipCallPlace => 0x0449
  | .sipCallControl => 0x0006
  | .sipMe => 0x0be5
  | .sendMessage => 0x0c27
  | .certGet => 0x01df
  | .histFetch => 0x0193
  | .contactsFetch => 0x045a
  | .apiLoginPhone => 0x0111
  | .apiSignup => 0x0759

/-- The `switch`. -/
def ipcCommand (cmdid : ℕ) : Option IpcCommand :=
  [.sipOnline, .sipCallPlace, .sendMessage, .sipCallControl, .sipApns, .sipUuid, .sipMe, .certGet,
    .histFetch, .contactsFetch, .apiLoginPhone, .apiSignup].find? fun c => c.value = cmdid

/-- What a command calls, with the raws that it passes; an address is the text it was made of.
`ignored` is a return before any call, `unknown` the message about a command that there is not. -/
inductive IpcCall where
  | setOnline (state : ℤ)
  | startCall (dest : Text) (dname : List Byte)
  | message (dest : Text) (text : List Byte)
  | callControl (ckey : List Byte) (op : ℤ)
  | apns (data : List Byte)
  | uuid (uuid : List Byte)
  | localUser (login : List Byte)
  | getCert (login password : List Byte)
  | histIpc (flag : ℤ)
  | contactsIpc
  | loginPhone (phone : List Byte)
  | signup (token otp login name : List Byte)
  | ignored
  | unknown (cmdid : ℕ) (cmd : List Byte)

/-- `(int)arg->via.i64`. -/
def intArg (arg : Obj) : Option ℤ := arg.i64.map fun i => i.bmod (2 ^ 32)

/-- `strncmp` of a raw and a string, as many bytes as the raw has; `true` for 0. -/
def strncmpEq : List Byte → Text → Bool
  | [], _ => true
  | b :: _, [] => b = nul
  | b :: bs, c :: s => b = c.1 && strncmpEq bs s

/-- The address that `sippuser_by_name` has decoded; `decodes` is `sip_addr_decode`. -/
def userUri (user : List Byte) : Text := lit "sip:" ++ cstr user ++ lit "@texr.net"

section

variable (hash : List Byte → UInt32) (decodes : Text → Bool)

/-- The address behind `dest` after `sippuser_by_name`, if there is one. -/
def sippuserByName (user : List Byte) : Option Text :=
  if decodes (userUri user) then some (userUri user) else none

/-- The arms of the `switch`: `l` is the array, which begins with `cmd`. -/
def ipcArm (cmd : List Byte) (l : List Obj) : IpcCommand → Option IpcCall
  | .sipOnline =>
    if l.length ≠ 2 then some .ignored
    else do
      let state ← intArg (← l[1]?)
      some (.setOnline state)
  | .sipCallPlace =>
    if l.length ≠ 3 then some .ignored
    else do
      let dest ← sippuserByName decodes (← (← l[1]?).rawBytes)
      let dname ← (← l[2]?).rawBytes
      some (.startCall dest dname)
  | .sendMessage =>
    if l.length ≠ 3 then some .ignored
    else do
      let dest ← sippuserByName decodes (← (← l[1]?).rawBytes)
      let text ← (← l[2]?).rawBytes
      some (.message dest text)
  | .sipCallControl =>
    if l.length ≠ 3 then some .ignored
    else do
      let ckey ← (← l[1]?).rawBytes
      let op ← intArg (← l[2]?)
      some (.callControl ckey op)
  | .sipApns =>
    if strncmpEq cmd (lit "sip.apns") then
      if l.length ≠ 2 then some .ignored
      else do
        let data ← (← l[1]?).rawBytes
        some (.apns data)
    else some .ignored
  | .sipUuid =>
    if strncmpEq cmd (lit "sip.uuid") then
      if l.length ≠ 2 then some .ignored
      else do
        let uuid ← (← l[1]?).rawBytes
        some (.uuid uuid)
    else some .ignored
  | .sipMe =>
    if l.length ≠ 2 then some .ignored
    else do
      let login ← (← l[1]?).rawBytes
      some (.localUser login)
  | .certGet =>
    if l.length ≠ 3 then some .ignored
    else do
      let login ← (← l[1]?).rawBytes
      let password ← (← l[2]?).rawBytes
      some (.getCert login password)
  | .histFetch =>
    if l.length = 1 then some (.histIpc 0)
    else do
      let flag ← intArg (← l[1]?)
      some (.histIpc flag)
  | .contactsFetch => some .contactsIpc
  | .apiLoginPhone =>
    if l.length ≠ 2 then some .ignored
    else do
      let phone ← (← l[1]?).rawBytes
      some (.loginPhone phone)
  | .apiSignup =>
    if l.length ≠ 5 then some .ignored
    else do
      let token ← (← l[1]?).rawBytes
      let otp ← (← l[2]?).rawBytes
      let login ← (← l[3]?).rawBytes
      let name ← (← l[4]?).rawBytes
      some (.signup token otp login name)

/-- `tcsip_ob_cmd`, with the hash that `hash_joaat_ci` makes of a command. -/
def tcsipObCmd (ob : Obj) : Option IpcCall := do
  let l ← ob.elems
  match l with
  | [] => some .ignored
  | .raw cmd :: _ =>
    let cmdid := (hash cmd &&& 0xFFF).toNat
    match ipcCommand cmdid with
    | some c => ipcArm decodes cmd l c
    | none => some (.unknown cmdid cmd)
  | _ :: _ => some .ignored

end

/-! ## Signatures -/

/-- What a command takes: an integer, a raw, or a raw that `sippuser_by_name` can make an address
of. -/
inductive ArgKind where
  | int
  | raw
  | user

/-- An object is such an argument. -/
def ArgKind.Fits (decodes : Text → Bool) : ArgKind → Obj → Prop
  | .int, ob => ∃ i, ob = .integer i
  | .raw, ob => ∃ b, ob = .raw b
  | .user, ob => ∃ b, ob = .raw b ∧ decodes (userUri b) = true

/-- The arguments of each command after its name. -/
def signature : IpcCommand → List ArgKind
  | .sipOnline => [.int]
  | .sipCallPlace => [.user, .raw]
  | .sendMessage => [.user, .raw]
  | .sipCallControl => [.raw, .int]
  | .sipApns => [.raw]
  | .sipUuid => [.raw]
  | .sipMe => [.raw]
  | .certGet => [.raw, .raw]
  | .histFetch => [.int]
  | .contactsFetch => []
  | .apiLoginPhone => [.raw]
  | .apiSignup => [.raw, .raw, .raw, .raw]

/-- Whether a command reads its arguments: it does not if there are too many or too few, or if its
name is not the one that two of them ask for.  `histFetch` reads the first of any number. -/
def Reads (cmd : List Byte) (args : List Obj) : IpcCommand → Prop
  | .sipApns => strncmpEq cmd (lit "sip.apns") = true ∧ args.length = 1
  | .sipUuid => strncmpEq cmd (lit "sip.uuid") = true ∧ args.length = 1
  | .histFetch => args ≠ []
  | c => args.length = (signature c).length

/-- The object is an array, and if it is a command that reads its arguments, they fit. -/
def WellTyped (hash : List Byte → UInt32) (decodes : Text → Bool) (ob : Obj) : Prop :=
  ∃ l, ob = .array l ∧ ∀ cmd args, l = .raw cmd :: args →
    ∀ c, ipcCommand (hash cmd &&& 0xFFF).toNat = some c → Reads cmd args c →
      List.Forall₂ (ArgKind.Fits decodes) (signature c) (args.take (signature c).length)

/-! ## A command reads what fits its signature -/

/-- Every command is found by its value. -/
theorem ipcCommand_value (c : IpcCommand) : ipcCommand c.value = some c := by
  cases c <;> rfl

section

variable {α : Type} {decodes : Text → Bool}

@[simp] theorem isSome_rawBytes_bind {a : Obj} {k : List Byte → Option α} :
    (a.rawBytes.bind k).isSome = true ↔ ∃ b, a = .raw b ∧ (k b).isSome = true := by
  cases a <;> simp [Obj.rawBytes]

@[simp] theorem isSome_intArg_bind {a : Obj} {k : ℤ → Option α} :
    ((intArg a).bind k).isSome = true ↔
      ∃ i, a = .integer i ∧ (k (i.bmod (2 ^ 32))).isSome = true := by
  cases a <;> simp [intArg, Obj.i64]

@[simp] theorem isSome_sippuserByName_bind {user : List Byte} {k : Text → Option α} :
    ((sippuserByName decodes user).bind k).isSome = true ↔
      decodes (userUri user) = true ∧ (k (userUri user)).isSome = true := by
  unfold sippuserByName
  by_cases h : decodes (userUri user) = true
  · simp [h]
  · simp [h]

theorem ipcArm_isSome_iff (cmd : List Byte) (args : List Obj) (c : IpcCommand) :
    (ipcArm decodes cmd (.raw cmd :: args) c).isSome = true ↔
      (Reads cmd args c →
        List.Forall₂ (ArgKind.Fits decodes) (signature c) (args.take (signature c).length)) := by
  cases c with
  | sipOnline | sipMe | apiLoginPhone =>
      rcases args with _ | ⟨a, _ | ⟨b, rest⟩⟩ <;> simp [ipcArm, Reads, signature, ArgKind.Fits]
  | sipApns | sipUuid =>
      rcases args with _ | ⟨a, _ | ⟨b, rest⟩⟩ <;>
        simp [ipcArm, Reads, signature, ArgKind.Fits]
      split <;> simp_all
  | sipCallPlace | sendMessage =>
      rcases args with _ | ⟨a, _ | ⟨b, _ | ⟨c, rest⟩⟩⟩ <;>
        simp [ipcArm, Reads, signature, ArgKind.Fits]
      constructor
      · rintro ⟨user, huser, hdest, hraw⟩
        exact ⟨⟨user, huser, hdest⟩, hraw⟩
      · rintro ⟨⟨user, huser, hdest⟩, hraw⟩
        exact ⟨user, huser, hdest, hraw⟩
  | sipCallControl | certGet =>
      rcases args with _ | ⟨a, _ | ⟨b, _ | ⟨c, rest⟩⟩⟩ <;>
        simp [ipcArm, Reads, signature, ArgKind.Fits]
  | histFetch =>
      rcases args with _ | ⟨a, rest⟩ <;> simp [ipcArm, Reads, signature, ArgKind.Fits]
  | contactsFetch => simp [ipcArm, Reads, signature]
  | apiSignup =>
      rcases args with _ | ⟨a, _ | ⟨b, _ | ⟨c, _ | ⟨d, _ | ⟨e, rest⟩⟩⟩⟩⟩ <;>
        simp [ipcArm, Reads, signature, ArgKind.Fits]

end

/-- **Commands are read within their type** exactly if they are well typed. -/
theorem tcsipObCmd_isSome_iff (hash : List Byte → UInt32) (decodes : Text → Bool) (ob : Obj) :
    (tcsipObCmd hash decodes ob).isSome = true ↔ WellTyped hash decodes ob := by
  cases ob with
  | array l =>
      rcases l with _ | ⟨a, args⟩
      · exact iff_of_true rfl ⟨[], rfl, fun _ _ h => absurd h (List.cons_ne_nil _ _).symm⟩
      · cases a with
        | raw cmd =>
            have hcmd : tcsipObCmd hash decodes (.array (.raw cmd :: args)) =
                match ipcCommand (hash cmd &&& 0xFFF).toNat with
                | some c => ipcArm decodes cmd (.raw cmd :: args) c
                | none => some (.unknown (hash cmd &&& 0xFFF).toNat cmd) := rfl
            rw [hcmd]
            constructor
            · intro h
              refine ⟨_, rfl, fun cmd' args' heq c hc => ?_⟩
              obtain ⟨hraw, rfl⟩ := List.cons.inj heq
              obtain rfl := Obj.raw.inj hraw
              rw [hc] at h
              exact (ipcArm_isSome_iff cmd args c).mp h
            · rintro ⟨l, hl, h⟩
              obtain rfl := Obj.array.inj hl
              cases hc : ipcCommand (hash cmd &&& 0xFFF).toNat with
              | none => rfl
              | some c => exact (ipcArm_isSome_iff cmd args c).mpr (h cmd args rfl c hc)
        | nil | boolean | integer | double | array | map =>
            refine iff_of_true rfl ⟨_, rfl, fun cmd' args' heq => ?_⟩
            exact absurd (List.cons.inj heq).1 (by simp)
  | nil | boolean | integer | double | raw | map =>
      refine iff_of_false (by simp [tcsipObCmd, Obj.elems]) ?_
      rintro ⟨l, hl, -⟩
      exact absurd hl (by simp)

/-- A client that sends the byte of `nil` has something read that is not there. -/
theorem tcsipObCmd_nil :
    (readCbAll .fresh (.bytes [BigEndian.byte 0xc0])).map Prod.fst = some [.nil] ∧
    ¬ ∀ (hash : List Byte → UInt32) (decodes : Text → Bool) (ob : Obj),
      (tcsipObCmd hash decodes ob).isSome = true :=
  ⟨rfl, fun h => absurd (h (fun _ => 0) (fun _ => true) .nil) (by simp [tcsipObCmd, Obj.elems])⟩

end Commands
