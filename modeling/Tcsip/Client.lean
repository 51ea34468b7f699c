/-
# Login and the parts of the client

`tcsip_local` logs a user in with the certificate that is stored for the login: it decodes
the user from the certificate's CN and builds the parts of the client anew, each with a
reference to that user or to the login.  It fails in four places, and by the last three of
them it has already replaced some of the old parts.

The registration is not built by a login but by the first command to go online, and it keeps
the user of that moment.  So the parts of the client denote one user as long as all commands
to go online are given under the user of the first of them.

Objects are counted references, so two fields are the same when their addresses are; `heap`
is the next address.  Where certificates are stored and how an address is decoded are
parameters.
-/
import Tcsip.CText
import Tcsip.Registration
import Tcsip.Runs

open Runs

/-! ## The client -/

/-- An object with its address. -/
structure Ref (α : Type*) where
  addr : ℕ
  val : α
  deriving DecidableEq

/-- `platpath`, with the paths of the certificate and of the authority, and
`sip_addr_decode`, with the record that it leaves and whether it fails. -/
structure LoginEnv (A : Type*) where
  platpath : Text → Text × Option Text
  sipAddrDecode : Text → A × Bool

/-- What `x509_info` reads from a certificate: the time it ends, and its CN. -/
structure X509Info where
  after : ℤ
  cname : Text
  deriving DecidableEq

/-- `struct tcmessages`: the user, and the login of the store. -/
structure ClientMessages (A : Type*) where
  user : Ref A
  store : Text
  deriving DecidableEq

/-- `struct tcsipreg` with its users. -/
structure SregC (A : Type*) where
  localUser : Ref A
  remoteUser : Ref A
  reg : TcsipReg
  deriving DecidableEq

/-- `struct tcsip` with `uac->tls`.  The stores `hist` and `contacts` are given by the login,
`http` by the path of its certificate. -/
structure Tcsip (A : Type*) where
  userC : Option (Ref A)
  cname : Option (Ref Text)
  tls : Option (Ref (Text × Option Text))
  http : Option (Ref Text)
  st : Option (Ref Text)
  hist : Option (Ref Text)
  contacts : Option (Ref Text)
  msg : Option (Ref (ClientMessages A))
  sregC : Option (SregC A)
  heap : ℕ
  deriving DecidableEq

variable {A : Type*}

/-- `tcsip_alloc` -/
def tcsipAlloc : Tcsip A where
  userC := none
  cname := none
  tls := none
  http := none
  st := none
  hist := none
  contacts := none
  msg := none
  sregC := none
  heap := 0

/-- `tcsip_local`; `info` is what `x509_info` reads, if it does not fail, `tlsErr` is the
result of `tls_alloc`.  The second component is the value returned. -/
def tcsipLocal (env : LoginEnv A) (sip : Tcsip A) (login : Text) (info : Option X509Info)
    (now : ℤ) (tlsErr : Bool) : Tcsip A × ℕ :=
  let certpath := (env.platpath login).1
  match info with
  | none => (sip, 1)
  | some info =>
    let user : Ref A := ⟨sip.heap + 1, (env.sipAddrDecode info.cname).1⟩
    let sip := { sip with
      userC := some user
      cname := some ⟨sip.heap, info.cname⟩
      heap := sip.heap + 2 }
    if (env.sipAddrDecode info.cname).2 then (sip, 2)
    else if info.after < now then (sip, 3)
    else
      let sip := { sip with tls := none }
      if tlsErr then (sip, 4)
      else ({ sip with
        tls := some ⟨sip.heap, env.platpath login⟩
        http := some ⟨sip.heap + 1, certpath⟩
        st := some ⟨sip.heap + 2, login⟩
        hist := some ⟨sip.heap + 3, login⟩
        contacts := some ⟨sip.heap + 4, login⟩
        msg := some ⟨sip.heap + 5, ⟨user, login⟩⟩
        heap := sip.heap + 6 }, 0)

/-- `tcsip_set_online`; `err` is the result of the call that `tcsreg_state` makes. -/
def tcsipSetOnline (sip : Tcsip A) (state : RegCmd) (err : Bool) : Tcsip A :=
  let sreg : Option (SregC A) := match sip.sregC, sip.userC with
    | none, some user => if state ≠ .off then some ⟨user, user, tcsipregAlloc⟩ else none
    | sreg, _ => sreg
  { sip with sregC := sreg.map fun r => { r with reg := (tcsregState r.reg state err).1 } }

/-! ## Runs -/

/-- The two commands that change the identity, with the results of what they call. -/
inductive ClientEvent
  | login (login : Text) (info : Option X509Info) (now : ℤ) (tlsErr : Bool)
  | online (state : RegCmd) (err : Bool)
  deriving DecidableEq

/-- Any command may come in any state. -/
def clientStep (env : LoginEnv A) (sip : Tcsip A) : ClientEvent → Option (Tcsip A)
  | .login login info now tlsErr => some (tcsipLocal env sip login info now tlsErr).1
  | .online state err => some (tcsipSetOnline sip state err)

/-! ## A failed login -/

/-- The parts of the client that a login replaces are the same objects. -/
structure SameParts (s t : Tcsip A) : Prop where
  userC : t.userC = s.userC
  cname : t.cname = s.cname
  tls : t.tls = s.tls
  http : t.http = s.http
  st : t.st = s.st
  hist : t.hist = s.hist
  contacts : t.contacts = s.contacts
  msg : t.msg = s.msg

/-- The certificate was read, and nothing fails after that. -/
def LogsIn (env : LoginEnv A) (info : Option X509Info) (now : ℤ) (tlsErr : Bool) : Prop :=
  ∃ i ∈ info, (env.sipAddrDecode i.cname).2 = false ∧ now ≤ i.after ∧ tlsErr = false

/-- The address of the user was given out before. -/
def UserAllocated (s : Tcsip A) : Prop := ∀ r ∈ s.userC, r.addr < s.heap

section Login

variable {env : LoginEnv A} {s : Tcsip A} {login : Text} {info : Option X509Info} {now : ℤ}
  {tlsErr : Bool}

/-- A login that cannot read the certificate changes nothing. -/
@[simp] theorem tcsipLocal_none :
    tcsipLocal env s login none now tlsErr = (s, 1) := rfl

/-- Every other login leaves a new user, also when it fails. -/
theorem tcsipLocal_userC (i : X509Info) :
    (tcsipLocal env s login (some i) now tlsErr).1.userC =
      some ⟨s.heap + 1, (env.sipAddrDecode i.cname).1⟩ := by
  simp only [tcsipLocal]
  split_ifs <;> rfl

theorem tcsipLocal_heap (i : X509Info) :
    s.heap + 1 < (tcsipLocal env s login (some i) now tlsErr).1.heap := by
  simp only [tcsipLocal]
  split_ifs <;> simp only <;> omega

@[simp] theorem tcsipLocal_sregC :
    (tcsipLocal env s login info now tlsErr).1.sregC = s.sregC := by
  cases info with
  | none => rfl
  | some i =>
    simp only [tcsipLocal]
    split_ifs <;> rfl

theorem tcsipLocal_eq_zero_iff :
    (tcsipLocal env s login info now tlsErr).2 = 0 ↔ LogsIn env info now tlsErr := by
  cases info with
  | none => simp [LogsIn]
  | some i =>
    simp only [tcsipLocal, LogsIn]
    split_ifs <;> simp_all

theorem userAllocated_clientStep {t : Tcsip A} {e : ClientEvent} (h : UserAllocated s)
    (hstep : clientStep env s e = some t) : UserAllocated t := by
  cases e with
  | login login info now tlsErr =>
    obtain rfl := Option.some.inj hstep
    cases info with
    | none => exact h
    | some i =>
      intro r hr
      rw [tcsipLocal_userC] at hr
      obtain rfl := Option.some.inj hr
      exact tcsipLocal_heap i
  | online state err =>
    obtain rfl := Option.some.inj hstep
    exact h

/-- **A failed login leaves the client as it was only if it cannot read the certificate**:
in every state of a client, a login that fails later has replaced the user. -/
theorem failed_login_keeps_iff {es : List ClientEvent}
    (hrun : run (clientStep env) tcsipAlloc es = some s) (login : Text)
    (info : Option X509Info) (now : ℤ) (tlsErr : Bool) :
    ((tcsipLocal env s login info now tlsErr).2 ≠ 0 →
        SameParts s (tcsipLocal env s login info now tlsErr).1) ↔
      info = none ∨ LogsIn env info now tlsErr := by
  have halloc : UserAllocated s :=
    run_invariant (clientStep env) (C := fun _ _ => True)
      (fun _ _ _ hI _ hstep => userAllocated_clientStep hI hstep)
      (fun r hr => absurd hr (Option.not_mem_none r))
      (stepsMeet_of_forall _ (fun _ _ => trivial) _ es) hrun
  constructor
  · intro h
    cases info with
    | none => exact Or.inl rfl
    | some i =>
      right
      by_contra hfails
      have hsame := (h (mt tcsipLocal_eq_zero_iff.mp hfails)).userC
      rw [tcsipLocal_userC] at hsame
      -- the address of the new user was not in use
      have hlt : s.heap + 1 < s.heap := halloc _ hsame.symm
      omega
  · rintro (rfl | hlogs) hne
    · exact ⟨rfl, rfl, rfl, rfl, rfl, rfl, rfl, rfl⟩
    · exact absurd (tcsipLocal_eq_zero_iff.mpr hlogs) hne

end Login

/-- Every text is an address, all files are in one place. -/
def textEnv : LoginEnv Text where
  platpath login := (login, none)
  sipAddrDecode t := (t, false)

def aliceLogin : ClientEvent := .login (lit "alice") (some ⟨2000, lit "sip:alice@x"⟩) 1000 false

def bobLogin : ClientEvent := .login (lit "bob") (some ⟨2000, lit "sip:bob@x"⟩) 1000 false

theorem failed_login_keeps_iff_alice :
    let s := (run (clientStep textEnv) tcsipAlloc [aliceLogin]).getD tcsipAlloc
    ((tcsipLocal textEnv s (lit "bob") none 3000 false).2 ≠ 0 →
        SameParts s (tcsipLocal textEnv s (lit "bob") none 3000 false).1) ↔
      (none : Option X509Info) = none ∨ LogsIn textEnv none 3000 false :=
  failed_login_keeps_iff (show run (clientStep textEnv) tcsipAlloc [aliceLogin] = some _ from rfl)
    (lit "bob") none 3000 false

/-- Alice is logged in, and the certificate of Bob has expired: the login fails, and the
client has Bob as its user and Alice in its messages. -/
theorem failed_login_replaces_user :
    let s := (run (clientStep textEnv) tcsipAlloc [aliceLogin]).getD tcsipAlloc
    let next := tcsipLocal textEnv s (lit "bob") (some ⟨2000, lit "sip:bob@x"⟩) 3000 false
    next.2 = 3 ∧ next.1.userC ≠ s.userC ∧
      next.1.userC.map Ref.val = some (lit "sip:bob@x") ∧
      next.1.msg.map (fun m => m.val.user.val) = some (lit "sip:alice@x") := by
  decide

/-! ## One identity -/

/-- A client with the user of the latest login, the user that the first command to go online
after a login found, and whether it has just been told to go online. -/
structure IdentityRun (A : Type*) where
  sip : Tcsip A
  latest : Option A
  first : Option A
  wentOnline : Bool
  deriving DecidableEq

/-- The client after `tcsip_alloc`; nobody has logged in. -/
def identityInit : IdentityRun A := ⟨tcsipAlloc, none, none, false⟩

/-- A login that fails is refused. -/
def identityStep (env : LoginEnv A) (s : IdentityRun A) : ClientEvent → Option (IdentityRun A)
  | .login login info now tlsErr =>
    let next := tcsipLocal env s.sip login info now tlsErr
    if next.2 = 0 then
      some { s with
        sip := next.1
        latest := info.map fun i => (env.sipAddrDecode i.cname).1
        wentOnline := false }
    else none
  | .online state err =>
    some { s with
      sip := tcsipSetOnline s.sip state err
      first := if state ≠ .off then s.first <|> s.latest else s.first
      wentOnline := decide (state ≠ .off) }

/-- The registration, the messages and the client itself have `u` as their user. -/
structure DenotesUser (sip : Tcsip A) (u : A) : Prop where
  userC : sip.userC.map Ref.val = some u
  msg : sip.msg.map (fun m => m.val.user.val) = some u
  localUser : sip.sregC.map (fun r => r.localUser.val) = some u
  remoteUser : sip.sregC.map (fun r => r.remoteUser.val) = some u

/-- After a command to go online everything denotes the user of the latest login. -/
def OneIdentity (s : IdentityRun A) : Prop :=
  s.wentOnline = true → ∀ u ∈ s.latest, DenotesUser s.sip u

/-- A command to go online finds the user that the first such command found. -/
def SameUser (s : IdentityRun A) : ClientEvent → Prop
  | .login _ _ _ _ => True
  | .online state _ => state ≠ .off → ∀ u ∈ s.latest, ∀ v ∈ s.first, v = u

/-- Where the parts of the client have their users from. -/
structure TracksUsers (s : IdentityRun A) : Prop where
  userC : s.sip.userC.map Ref.val = s.latest
  msg : s.sip.msg.map (fun m => m.val.user.val) = s.latest
  localUser : s.sip.sregC.map (fun r => r.localUser.val) = s.first
  remoteUser : s.sip.sregC.map (fun r => r.remoteUser.val) = s.first

theorem tracksUsers_identityInit : TracksUsers (identityInit : IdentityRun A) :=
  ⟨rfl, rfl, rfl, rfl⟩

/-- The registration has the user of the first command to go online after a login. -/
theorem map_tcsipSetOnline_sregC {f : SregC A → A} (hf : ∀ g reg, f { g with reg := reg } = f g)
    (hnew : ∀ user reg, f ⟨user, user, reg⟩ = user.val) (sip : Tcsip A) (state : RegCmd)
    (err : Bool) :
    (tcsipSetOnline sip state err).sregC.map f =
      if state ≠ .off then sip.sregC.map f <|> sip.userC.map Ref.val else sip.sregC.map f := by
  cases hs : sip.sregC with
  | some g => cases state <;> simp [tcsipSetOnline, hs, hf]
  | none =>
    cases hu : sip.userC with
    | none => cases state <;> simp [tcsipSetOnline, hs, hu]
    | some user => cases state <;> simp [tcsipSetOnline, hs, hu, hnew]

theorem tcsipLocal_msg {env : LoginEnv A} {s : Tcsip A} {login : Text} {info : Option X509Info}
    {now : ℤ} {tlsErr : Bool} (h : LogsIn env info now tlsErr) :
    (tcsipLocal env s login info now tlsErr).1.msg.map (fun m => m.val.user.val) =
      info.map fun i => (env.sipAddrDecode i.cname).1 := by
  obtain ⟨i, rfl, hdecode, htime, htls⟩ := h
  simp [tcsipLocal, hdecode, not_lt.mpr htime, htls]

theorem tracksUsers_identityStep {env : LoginEnv A} {s t : IdentityRun A} {e : ClientEvent}
    (h : TracksUsers s) (hstep : identityStep env s e = some t) : TracksUsers t := by
  cases e with
  | login login info now tlsErr =>
    simp only [identityStep, Option.ite_none_right_eq_some] at hstep
    obtain ⟨hzero, heq⟩ := hstep
    obtain rfl := Option.some.inj heq
    have hlogs := tcsipLocal_eq_zero_iff.mp hzero
    refine ⟨?_, tcsipLocal_msg hlogs, ?_, ?_⟩
    · obtain ⟨i, rfl, -⟩ := hlogs
      rw [tcsipLocal_userC]
      rfl
    · rw [tcsipLocal_sregC]
      exact h.localUser
    · rw [tcsipLocal_sregC]
      exact h.remoteUser
  | online state err =>
    obtain rfl := Option.some.inj hstep
    refine ⟨h.userC, h.msg, ?_, ?_⟩
    · rw [map_tcsipSetOnline_sregC (fun _ _ => rfl) (fun _ _ => rfl), h.localUser, h.userC]
    · rw [map_tcsipSetOnline_sregC (fun _ _ => rfl) (fun _ _ => rfl), h.remoteUser, h.userC]

/-- With the users of its parts known, the client denotes the latest user exactly when the
registration has it. -/
theorem TracksUsers.denotes_iff {s : IdentityRun A} (h : TracksUsers s) {u : A}
    (hu : s.latest = some u) :
    DenotesUser s.sip u ↔ s.first = some u := by
  constructor
  · exact fun hd => h.localUser.symm.trans hd.localUser
  · exact fun hf => ⟨h.userC.trans hu, h.msg.trans hu, h.localUser.trans hf,
      h.remoteUser.trans hf⟩

theorem oneIdentity_identityStep_iff {env : LoginEnv A} {s t : IdentityRun A} {e : ClientEvent}
    (h : TracksUsers s) (hstep : identityStep env s e = some t) : OneIdentity t ↔ SameUser s e := by
  have ht := tracksUsers_identityStep h hstep
  cases e with
  | login login info now tlsErr =>
    simp only [identityStep, Option.ite_none_right_eq_some] at hstep
    obtain ⟨-, heq⟩ := hstep
    obtain rfl := Option.some.inj heq
    exact iff_of_true (fun hw => nomatch hw) trivial
  | online state err =>
    obtain rfl := Option.some.inj hstep
    by_cases hoff : state = .off
    · refine iff_of_true (fun hw => ?_) fun hne => absurd hoff hne
      exact absurd hoff (of_decide_eq_true hw)
    · rw [OneIdentity, imp_iff_right (by exact decide_eq_true hoff), SameUser,
        imp_iff_right hoff]
      refine forall₂_congr fun u hu => ?_
      rw [ht.denotes_iff hu]
      simp only [Option.mem_def] at hu
      cases s.first <;> simp [hoff, hu]

/-- **Everything denotes the user of the latest login exactly while all commands to go online
are given under the user of the first of them**, in every run of successful logins and
commands. -/
theorem always_oneIdentity_iff (env : LoginEnv A) (es : List ClientEvent) :
    Always (identityStep env) OneIdentity identityInit es ↔
      StepsMeet (identityStep env) SameUser identityInit es := by
  apply always_iff_stepsMeet (identityStep env) (I := TracksUsers)
  · exact fun s e t hI _ hstep => tracksUsers_identityStep hI hstep
  · exact fun s e t hI _ hstep => oneIdentity_identityStep_iff hI hstep
  · intro s e _ _ hrefused
    cases e with
    | login login info now tlsErr => trivial
    | online state err => exact nomatch hrefused
  · exact tracksUsers_identityInit
  · exact fun hw => nomatch hw

/-- Alice goes online, then Bob logs in and goes online: the client registers Alice. -/
theorem registers_other_user :
    ((run (identityStep textEnv) identityInit
      [aliceLogin, .online .fg false, bobLogin, .online .fg false]).map fun s =>
        (s.wentOnline, s.latest, s.sip.sregC.map fun r => r.localUser.val)) =
      some (true, some (lit "sip:bob@x"), some (lit "sip:alice@x")) := by
  decide
