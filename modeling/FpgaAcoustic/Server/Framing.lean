-- SUMMARY: A TCP session over a stream of commands, some of them unknown: when each command is found where it begins.
import FpgaAcoustic.Server.Dispatch
import FpgaAcoustic.Server.Tcp

/-!
# Framing

The header of a command does not say how long its payload is. The bytes of a
payload are taken by the parser of the operation, so nobody takes those of a
command that is rejected before, and they are read as the next header.
-/

namespace Koheron.Tcp

open Bytes

/-! ## The session -/

/-- What one pass of the loop of `run` comes to. -/
inductive Pass
  | closed
  | executed (driver operation : ℕ) (args : List Value)
  | rejected
  | undefined
  deriving DecidableEq

/-- A pass, and the bytes that it found ahead. -/
structure Turn where
  ahead : List Byte
  pass : Pass
  deriving DecidableEq

variable (cfg : Config)

/-- `driver_manager.execute`, down to the generated parser of the operation. -/
def executeCommand (ids : BitVec 16 × BitVec 16) (s : State) (m : DriverManager cfg.n) :
    Pass × State × DriverManager cfg.n :=
  match DriverManager.execute cfg ids m with
  | (.operation driver operation args, m) =>
    match session.parse args s with
    | (some values, s) => (.executed driver operation values, s, m)
    | (none, s) => (.rejected, s, m)
  | (.returned _, m) => (.rejected, s, m)
  | (.outOfBounds _, m) | (.nullDevice, m) => (.undefined, s, m)

/-- The first passes of the loop of `run`. A command that fails does not end it,
and after an access out of bounds nothing is known. -/
def run : ℕ → State → DriverManager cfg.n → List Turn
  | 0, _, _ => []
  | n + 1, s, m =>
    match readCommand s with
    | (none, _) => [⟨s.sock.flat, .closed⟩]
    | (some ids, s₁) =>
      let r := executeCommand cfg ids s₁ m
      ⟨s.sock.flat, r.1⟩ :: if r.1 = .undefined then [] else run n r.2.1 r.2.2

/-! ## Streams of commands -/

/-- The payload of a command: the arguments of an operation that the server
knows, or anything. -/
inductive Body (driver operation : BitVec 16)
  | known (args : List Value) (table : cfg.table driver operation = some (args.map Value.type))
      (sized : ∀ v ∈ args, v.Sized)
  | unknown (payload : List Byte) (table : cfg.table driver operation = none)

/-- A command as a client sends it. -/
structure Sent where
  reserved : List Byte
  length_reserved : reserved.length = headerStart
  driver : BitVec 16
  operation : BitVec 16
  body : Body cfg driver operation

variable {cfg}

def Body.payload {driver operation : BitVec 16} : Body cfg driver operation → List Byte
  | known args _ _ => args.flatMap Value.wire
  | unknown payload _ => payload

/-- What is to become of the command. -/
def Sent.pass (c : Sent cfg) : Pass :=
  match c.body with
  | .known args _ _ => .executed c.driver.toNat c.operation.toNat args
  | .unknown _ _ => .rejected

def Sent.encode (c : Sent cfg) : List Byte :=
  commandHeader c.reserved c.driver c.operation ++ c.body.payload

/-- The passes over the commands, each at its beginning, and the end of the stream. -/
def expected : List (Sent cfg) → List Turn
  | [] => [⟨[], .closed⟩]
  | c :: cs => ⟨(c :: cs).flatMap Sent.encode, c.pass⟩ :: expected cs

/-- No container of the arguments has more bytes than an `int` can count; or the
command is rejected, by a driver that exists, and has no payload. -/
def Sent.Harmless (c : Sent cfg) : Prop :=
  match c.body with
  | .known args _ _ => ∀ g ∈ groups [] args, 0 ≤ toInt32 g.body.length
  | .unknown payload _ => c.driver.toNat < cfg.deviceNum ∧ payload = []

/-! ## One command -/

section Command

variable {s : State} {m : DriverManager cfg.n} {c : Sent cfg} {rest : List Byte}

theorem lt_deviceNum_of_table {driver operation : BitVec 16} {args : List ArgType}
    (h : cfg.table driver operation = some args) : driver.toNat < cfg.deviceNum := by
  unfold Config.table Config.signature at h
  unfold Config.deviceNum
  split_ifs at h <;> omega

theorem readCommand_sent (c : Sent cfg) (h : Ahead s (c.encode ++ rest)) :
    ∃ s₁, readCommand s = (some (c.driver, c.operation), s₁) ∧
      Ahead s₁ (c.body.payload ++ rest) := by
  rw [Sent.encode, List.append_assoc] at h
  exact readCommand_decodes c.length_reserved c.driver c.operation s _ h

/-- A command that is rejected by its ids leaves its payload ahead. -/
theorem executeCommand_unknown (hm : m.Ready) {ids : BitVec 16 × BitVec 16}
    (htable : cfg.table ids.1 ids.2 = none) (hlt : ids.1.toNat < cfg.deviceNum) (s : State) :
    executeCommand cfg ids s m = (.rejected, s, (DriverManager.execute cfg ids m).2) := by
  have hout := DriverManager.execute_eq hm ids hlt
  rw [htable] at hout
  unfold executeCommand
  rw [show DriverManager.execute cfg ids m = (_, (DriverManager.execute cfg ids m).2) from
    Prod.ext hout rfl]

theorem executeCommand_known (hm : m.Ready) {ids : BitVec 16 × BitVec 16} {args : List ArgType}
    (htable : cfg.table ids.1 ids.2 = some args) (s : State) :
    executeCommand cfg ids s m =
      match session.parse args s with
      | (some values, s) =>
        (.executed ids.1.toNat ids.2.toNat values, s, (DriverManager.execute cfg ids m).2)
      | (none, s) => (.rejected, s, (DriverManager.execute cfg ids m).2) := by
  have hout := DriverManager.execute_eq hm ids (lt_deviceNum_of_table htable)
  rw [htable] at hout
  unfold executeCommand
  rw [show DriverManager.execute cfg ids m = (_, (DriverManager.execute cfg ids m).2) from
    Prod.ext hout rfl]

theorem executeCommand_out_of_range {ids : BitVec 16 × BitVec 16}
    (hge : cfg.deviceNum ≤ ids.1.toNat) (s : State) (m : DriverManager cfg.n) :
    executeCommand cfg ids s m = (.undefined, s, m) := by
  unfold executeCommand
  rw [DriverManager.execute_out_of_range m ids hge]

/-- Each pass begins with what is ahead. -/
theorem run_succ_head (n : ℕ) (s : State) (m : DriverManager cfg.n) :
    (run cfg (n + 1) s m).head?.map Turn.ahead = some s.sock.flat := by
  rw [run]
  rcases readCommand s with ⟨_ | ids, s₁⟩
  · rfl
  · rfl

/-- After a harmless command the session is at the beginning of the next one. -/
theorem run_of_harmless (hm : m.Ready) (h : Ahead s (c.encode ++ rest)) (hc : c.Harmless) :
    ∃ s₂ m₂, m₂.Ready ∧ Ahead s₂ rest ∧
      ∀ n, run cfg (n + 1) s m = ⟨c.encode ++ rest, c.pass⟩ :: run cfg n s₂ m₂ := by
  obtain ⟨s₁, hread, h₁⟩ := readCommand_sent c h
  have hready := hm.execute (c.driver, c.operation)
  unfold Sent.Harmless at hc
  unfold Sent.pass
  cases hbody : c.body with
  | known args htable hsized =>
    rw [hbody] at hc h₁
    obtain ⟨s₂, hs₂, hrest⟩ := parse_decodes hsized hc s₁ rest h₁
    refine ⟨s₂, _, hready, hrest, fun n => ?_⟩
    have hexec := @executeCommand_known cfg m hm (c.driver, c.operation) _ htable s₁
    rw [hs₂] at hexec
    rw [run, hread, ← h]
    simp only [hexec]
    rw [if_neg (by rintro ⟨⟩)]
  | unknown payload htable =>
    rw [hbody] at hc h₁
    obtain ⟨hlt, rfl⟩ := hc
    refine ⟨s₁, _, hready, h₁, fun n => ?_⟩
    have hexec := @executeCommand_unknown cfg m hm (c.driver, c.operation) htable hlt s₁
    rw [run, hread, ← h]
    simp only [hexec]
    rw [if_neg (by rintro ⟨⟩)]

/-- After any other command the first passes are not as they are to be. -/
theorem harmless_of_run (hm : m.Ready) (h : Ahead s (c.encode ++ rest)) {t : Turn}
    {ts : List Turn} (hrun : run cfg 2 s m = ⟨c.encode ++ rest, c.pass⟩ :: t :: ts)
    (ht : t.ahead = rest) : c.Harmless := by
  obtain ⟨s₁, hread, h₁⟩ := readCommand_sent c h
  unfold Sent.pass at hrun
  unfold Sent.Harmless
  rw [run, hread] at hrun
  cases hbody : c.body with
  | known args htable hsized =>
    rw [hbody] at hrun h₁
    by_contra hwide
    push Not at hwide
    have hnone := parse_rejects hsized hwide s₁ rest h₁
    have hexec := @executeCommand_known cfg m hm (c.driver, c.operation) _ htable s₁
    rw [show session.parse (args.map Value.type) s₁ = (none, _) from Prod.ext hnone rfl] at hexec
    simp only [hexec] at hrun
    have hpass := congrArg Turn.pass (List.cons.inj hrun).1
    cases hpass
  | unknown payload htable =>
    rw [hbody] at hrun h₁
    rcases Nat.lt_or_ge c.driver.toNat cfg.deviceNum with hlt | hge
    · refine ⟨hlt, ?_⟩
      have hexec := @executeCommand_unknown cfg m hm (c.driver, c.operation) htable hlt s₁
      simp only [hexec] at hrun
      rw [if_neg (by rintro ⟨⟩)] at hrun
      injection hrun with _ hrun
      have hahead := run_succ_head 0 s₁ (DriverManager.execute cfg (c.driver, c.operation) m).2
      rw [hrun] at hahead
      have hflat : t.ahead = payload ++ rest := (Option.some.inj hahead).trans h₁
      exact List.append_left_eq_self.mp (hflat.symm.trans ht)
    · have hexec := @executeCommand_out_of_range cfg (c.driver, c.operation) hge s₁ m
      simp only [hexec] at hrun
      have hpass := congrArg Turn.pass (List.cons.inj hrun).1
      cases hpass

end Command

/-! ## The whole stream -/

theorem run_nil {s : State} (h : Ahead s []) (n : ℕ) (m : DriverManager cfg.n) :
    run cfg (n + 1) s m = [⟨[], .closed⟩] := by
  have hread : (readCommand s).1 = none := by
    have hempty : s.sock = [] ∨ ∃ sock, s.sock = .error :: sock := by
      rcases hsock : s.sock with _ | ⟨_ | _, sock⟩
      · exact .inl rfl
      · rw [Ahead, hsock] at h
        cases h
      · exact .inr ⟨sock, rfl⟩
    unfold readCommand
    rcases hempty with hsock | ⟨sock, hsock⟩
    · simp [rcvNBytes, State.next, hsock, headerSize, Socket.receive, toInt32]
    · have hneg : toInt32 (-1) ≤ 0 := by decide
      simp [rcvNBytes, State.next, hsock, headerSize, Socket.receive, hneg]
  rw [run, show readCommand s = (none, (readCommand s).2) from Prod.ext hread rfl, ← h]

/-- The next pass is to find all that is left. -/
theorem exists_expected_eq (cmds : List (Sent cfg)) :
    ∃ t ts, expected cmds = t :: ts ∧ t.ahead = cmds.flatMap Sent.encode := by
  cases cmds with
  | nil => exact ⟨_, _, rfl, rfl⟩
  | cons c cmds => exact ⟨_, _, rfl, rfl⟩

/-- The session executes the known commands of a stream and finds each command
where it begins, just when all commands are harmless. -/
theorem run_expected_iff {s : State} {m : DriverManager cfg.n} {cmds : List (Sent cfg)}
    (hm : m.Ready) (h : Ahead s (cmds.flatMap Sent.encode)) :
    (∀ n, run cfg n s m = (expected cmds).take n) ↔ ∀ c ∈ cmds, c.Harmless := by
  induction cmds generalizing s m with
  | nil =>
    refine iff_of_true ?_ (fun c hc => absurd hc List.not_mem_nil)
    intro n
    cases n with
    | zero => rfl
    | succ n =>
      rw [run_nil h, expected, List.take_succ_cons, List.take_nil]
  | cons c cmds ih =>
    rw [List.flatMap_cons] at h
    rw [List.forall_mem_cons]
    constructor
    · intro hrun
      have hhead : c.Harmless := by
        obtain ⟨t, ts, htail, ht⟩ := exists_expected_eq cmds
        have htwo := hrun 2
        rw [expected, htail, List.take_succ_cons, List.take_succ_cons, List.flatMap_cons] at htwo
        exact harmless_of_run hm h htwo ht
      obtain ⟨s₂, m₂, hm₂, h₂, hstep⟩ := run_of_harmless hm h hhead
      refine ⟨hhead, (ih hm₂ h₂).mp fun n => ?_⟩
      have hnext := hrun (n + 1)
      rw [hstep, expected, List.take_succ_cons] at hnext
      exact List.tail_eq_of_cons_eq hnext
    · rintro ⟨hc, hcmds⟩ n
      obtain ⟨s₂, m₂, hm₂, h₂, hrun⟩ := run_of_harmless hm h hc
      cases n with
      | zero => rfl
      | succ n =>
        rw [hrun, (ih hm₂ h₂).mpr hcmds n]
        rfl

/-! ## Two streams -/

/-- A connection on which these commands arrive, byte by byte. -/
def streaming (cmds : List (Sent cfg)) : State where
  sock := Socket.bytewise (cmds.flatMap Sent.encode)
  stale := fun _ => ⟨fun _ => 0xaa, fun _ => [], []⟩

/-- An operation that no driver has, with a payload. -/
def unknownCommand (payload : List Byte) : Sent DriverManager.twoDrivers where
  reserved := [0, 0, 0, 0]
  length_reserved := rfl
  driver := 2
  operation := 9
  body := .unknown payload (by decide)

/-- The second operation of the first driver. -/
def sevenCommand : Sent DriverManager.twoDrivers where
  reserved := [0, 0, 0, 0]
  length_reserved := rfl
  driver := 2
  operation := 1
  body := .known [.scalar ⟨.uint32, 7⟩] (by decide) (by decide)

theorem rejected_then_seven_expected :
    run DriverManager.twoDrivers 3 (streaming [unknownCommand [], sevenCommand]) (.initial 2) =
      [⟨(unknownCommand []).encode ++ sevenCommand.encode, .rejected⟩,
        ⟨sevenCommand.encode, .executed 2 1 [.scalar ⟨.uint32, 7⟩]⟩, ⟨[], .closed⟩] := by
  have hahead : Ahead (streaming [unknownCommand [], sevenCommand])
      ([unknownCommand [], sevenCommand].flatMap Sent.encode) := Socket.flat_bytewise _
  refine (run_expected_iff DriverManager.ready_initial hahead).mpr ?_ 3
  intro c hc
  rcases List.mem_cons.mp hc with rfl | hc
  · exact ⟨by decide, rfl⟩
  · obtain rfl := List.mem_singleton.mp hc
    intro g hg
    obtain rfl := List.mem_singleton.mp hg
    decide

/-- The payload of a command that is rejected is executed as a command. -/
theorem payload_executed :
    (run DriverManager.twoDrivers 2 (streaming [unknownCommand sevenCommand.encode])
        (.initial 2)).map Turn.pass =
      [.rejected, .executed 2 1 [.scalar ⟨.uint32, 7⟩]] ∧
    ¬ ∀ n, run DriverManager.twoDrivers n (streaming [unknownCommand sevenCommand.encode])
        (.initial 2) = (expected [unknownCommand sevenCommand.encode]).take n := by
  have hpasses : (run DriverManager.twoDrivers 2
      (streaming [unknownCommand sevenCommand.encode]) (.initial 2)).map Turn.pass =
        [.rejected, .executed 2 1 [.scalar ⟨.uint32, 7⟩]] := by
    decide +kernel
  refine ⟨hpasses, fun hall => ?_⟩
  rw [hall 2] at hpasses
  revert hpasses
  decide +kernel

end Koheron.Tcp
