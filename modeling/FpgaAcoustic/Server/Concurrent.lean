-- SUMMARY: Sessions that call the same drivers at the same time: each driver sees whole calls, and each client gets the results of its own.
import Mathlib.Data.List.Basic
import FpgaAcoustic.Client.CppClient
import FpgaAcoustic.Server.Response
import FpgaAcoustic.Transition.Monitor

/-!
# Concurrent sessions

Every session has a thread, and the threads share the driver objects. The
generated `execute` of a driver holds a mutex while it reads the arguments, pack
by pack, into members of the driver's interface, calls the method with these
members, and sends the result. The drivers are started, and a response is
written at once.
-/

namespace Koheron.Concurrent

open Bytes Transition Relation

/-! ## Threads -/

/-- An object of the class `Driver`: the driver, and the members `args_` of each
operation. -/
structure Interface (δ : Type) where
  driver : δ
  args : BitVec 16 → ℕ → Value

/-- Where a thread is in the loop of `run`. -/
inductive Phase
  | reading
  | command (ids : BitVec 16 × BitVec 16)
  | parsing (ids : BitVec 16 × BitVec 16) (offset : ℕ) (packs : List Pack)
  | executed
  | ended
  deriving DecidableEq

/-- A session, with what it has written. -/
structure Thread where
  conn : Tcp.State
  phase : Phase
  written : List Byte

/-- `args_op.name = value`, for the arguments from `offset` on. -/
def assign : ℕ → List Value → (ℕ → Value) → ℕ → Value
  | _, [], members => members
  | offset, v :: vs, members => assign (offset + 1) vs (Function.update members offset v)

variable {δ : Type}

/-- The methods of the drivers. A `void` method returns nothing. -/
abbrev Methods (δ : Type) : Type :=
  BitVec 16 → BitVec 16 → List Value → δ → Option ReturnValue × δ

/-- What is written for a result. -/
def response (driver operation : BitVec 16) : Option ReturnValue → Option (List Byte)
  | none => some []
  | some v => Response.send driver operation v

variable (table : Table) (methods : Methods δ)

/-- The loop of `run` without the execution of commands. A command that is
unknown to its driver is refused. -/
inductive Outside : Thread → Thread → Prop
  | readCommand {t : Thread} {ids : BitVec 16 × BitVec 16} {conn : Tcp.State} :
      t.phase = .reading → Tcp.readCommand t.conn = (some ids, conn) →
      Outside t { t with conn := conn, phase := .command ids }
  | closed {t : Thread} {conn : Tcp.State} :
      t.phase = .reading → Tcp.readCommand t.conn = (none, conn) →
      Outside t { t with conn := conn, phase := .ended }
  | refused {t : Thread} {ids : BitVec 16 × BitVec 16} :
      t.phase = .command ids → table ids.1 ids.2 = none → Outside t { t with phase := .reading }

/-- `execute`, with the mutex. -/
inductive Enter (driver : BitVec 16) : Thread → Thread → Prop
  | execute {t : Thread} {operation : BitVec 16} {sig : List ArgType} :
      t.phase = .command (driver, operation) → table driver operation = some sig →
      Enter driver t { t with phase := .parsing (driver, operation) 0 (buildArgsPacks [] sig) }

/-- `execute_operation`. A pack that cannot be read leaves anything in the members. -/
inductive Inside (driver : BitVec 16) : Interface δ × Thread → Interface δ × Thread → Prop
  | pack {o : Interface δ} {t : Thread} {operation : BitVec 16} {offset : ℕ} {p : Pack}
      {packs : List Pack} {vs : List Value} {conn : Tcp.State} :
      t.phase = .parsing (driver, operation) offset (p :: packs) →
      Tcp.session.parsePack p t.conn = (some vs, conn) →
      Inside driver (o, t)
        ({ o with args := Function.update o.args operation (assign offset vs (o.args operation)) },
          { t with conn := conn, phase := .parsing (driver, operation) (offset + vs.length) packs })
  | failed {o : Interface δ} {t : Thread} {operation : BitVec 16} {offset : ℕ} {p : Pack}
      {packs : List Pack} {conn : Tcp.State} (members : ℕ → Value) :
      t.phase = .parsing (driver, operation) offset (p :: packs) →
      Tcp.session.parsePack p t.conn = (none, conn) →
      Inside driver (o, t)
        ({ o with args := Function.update o.args operation members },
          { t with conn := conn, phase := .executed })
  | call {o : Interface δ} {t : Thread} {operation : BitVec 16} {offset : ℕ} {sig : List ArgType}
      {r : Option ReturnValue × δ} {bytes : List Byte} :
      t.phase = .parsing (driver, operation) offset [] →
      table driver operation = some sig →
      methods driver operation ((List.range sig.length).map (o.args operation)) o.driver = r →
      response driver operation r.1 = some bytes →
      Inside driver (o, t)
        ({ o with driver := r.2 }, { t with phase := .executed, written := t.written ++ bytes })

inductive Leave : Thread → Thread → Prop
  | unlock {t : Thread} : t.phase = .executed → Leave t { t with phase := .reading }

/-- The threads of the sessions and the interfaces of the drivers. -/
def server : Monitor (BitVec 16) (Interface δ) Thread where
  outside := Outside table
  enter := Enter table
  inside := Inside table methods
  leave := Leave

/-! ## Specification -/

/-- A call of an operation that the server has, with arguments whose bytes it can
count. -/
structure Request (table : Table) where
  call : Call
  known : table call.driver call.operation = some (call.args.map Value.type)
  sized : ∀ v ∈ call.args, v.Sized
  narrow : ∀ g ∈ groups [] call.args, 0 ≤ toInt32 g.body.length

namespace Request

variable {table : Table}

def payload (r : Request table) : List Byte := r.call.args.flatMap Value.wire

def encode (r : Request table) : List Byte :=
  commandHeader CppClient.reserved r.call.driver r.call.operation ++ r.payload

end Request

variable {ι : Type} [DecidableEq ι]

/-- The drivers, and the responses to each client. -/
structure Answers (ι δ : Type) where
  drivers : BitVec 16 → δ
  responses : ι → List Byte

variable {table}

/-- A whole call. -/
def answer (a : Answers ι δ) (e : ι × Request table) : Option (Answers ι δ) :=
  let call := e.2.call
  let r := methods call.driver call.operation call.args (a.drivers call.driver)
  (response call.driver call.operation r.1).map fun bytes =>
    ⟨Function.update a.drivers call.driver r.2,
      Function.update a.responses e.1 (a.responses e.1 ++ bytes)⟩

/-- Whole calls, one after the other. -/
def answerAll (a : Answers ι δ) (history : List (ι × Request table)) : Option (Answers ι δ) :=
  history.foldlM (answer methods) a

/-- The calls of one client. -/
def callsOf (c : ι) (history : List (ι × Request table)) : List (Request table) :=
  (history.filter fun e => e.1 = c).map Prod.snd

/-- The connections of the clients, with the requests that come on them. -/
structure Clients (ι : Type) (table : Table) where
  requests : ι → List (Request table)
  conn : ι → Tcp.State
  ahead : ∀ c, Tcp.Ahead (conn c) ((requests c).flatMap Request.encode)

/-- All sessions are open, and nothing has been read. -/
def Clients.start (clients : Clients ι table) (interfaces : BitVec 16 → Interface δ) :
    Monitor.Whole ι (BitVec 16) (Interface δ) Thread :=
  ⟨interfaces, fun c => ⟨clients.conn c, .reading, []⟩⟩

/-! ## One call -/

section Call

variable {t t' : Thread} {o o' : Interface δ} {driver : BitVec 16}

theorem assign_of_lt {offset i : ℕ} (h : i < offset) (vs : List Value) (members : ℕ → Value) :
    assign offset vs members i = members i := by
  induction vs generalizing offset members with
  | nil => rfl
  | cons v vs ih => rw [assign, ih (h.trans (Nat.lt_succ_self offset)), Function.update_of_ne h.ne]

theorem assign_add {vs : List Value} {i : ℕ} {v : Value} (h : vs[i]? = some v) (offset : ℕ)
    (members : ℕ → Value) : assign offset vs members (offset + i) = v := by
  induction vs generalizing offset members i with
  | nil => simp at h
  | cons u vs ih =>
    cases i with
    | zero =>
      have hlt : offset + 0 < offset + 1 := Nat.lt_succ_self offset
      rw [assign, assign_of_lt hlt, Nat.add_zero, Function.update_self]
      simpa using h
    | succ i =>
      rw [assign, show offset + (i + 1) = offset + 1 + i by omega]
      exact ih (by simpa using h) _ _

/-- The members hold these values. -/
def Holds (members : ℕ → Value) (vs : List Value) : Prop := ∀ i v, vs[i]? = some v → members i = v

theorem Holds.assign {members : ℕ → Value} {us : List Value} (h : Holds members us)
    (vs : List Value) : Holds (assign us.length vs members) (us ++ vs) := by
  intro i v hv
  rcases Nat.lt_or_ge i us.length with hlt | hge
  · rw [List.getElem?_append_left hlt] at hv
    rw [assign_of_lt hlt, h i v hv]
  · rw [List.getElem?_append_right hge] at hv
    obtain ⟨j, rfl⟩ := Nat.exists_eq_add_of_le hge
    rw [Nat.add_sub_cancel_left] at hv
    exact assign_add hv _ _

theorem Holds.map_range {members : ℕ → Value} {vs : List Value} (h : Holds members vs) :
    (List.range vs.length).map members = vs := by
  refine List.ext_getElem? fun i => ?_
  rcases Nat.lt_or_ge i vs.length with hlt | hge
  · rw [List.getElem?_map, List.getElem?_range hlt, Option.map_some, List.getElem?_eq_getElem hlt,
      h i _ (List.getElem?_eq_getElem hlt)]
  · rw [List.getElem?_eq_none (by simpa using hge), List.getElem?_eq_none hge]

/-- A thread that is about to read these requests, or has read the header of the
first one. -/
inductive At (t : Thread) : List (Request table) → Prop
  | reading {rs : List (Request table)} : t.phase = .reading →
      Tcp.Ahead t.conn (rs.flatMap Request.encode) → At t rs
  | command {r : Request table} {rs : List (Request table)} :
      t.phase = .command (r.call.driver, r.call.operation) →
      Tcp.Ahead t.conn (r.payload ++ rs.flatMap Request.encode) → At t (r :: rs)
  | ended : t.phase = .ended → At t []

/-- A thread in the call of a request, which began with this driver and these
bytes written. -/
inductive Executing (r : Request table) (rest : List Byte) (state : δ) (written : List Byte) :
    Interface δ × Thread → Prop
  | parsing {o : Interface δ} {t : Thread} (past left : List Group) :
      groups [] r.call.args = past ++ left →
      t.phase = .parsing (r.call.driver, r.call.operation) (past.flatMap Group.values).length
        (left.map Group.pack) →
      Holds (o.args r.call.operation) (past.flatMap Group.values) →
      Tcp.Ahead t.conn (left.flatMap Group.wire ++ rest) → o.driver = state →
      t.written = written → Executing r rest state written (o, t)
  | executed {o : Interface δ} {t : Thread} {bytes : List Byte} : t.phase = .executed →
      response r.call.driver r.call.operation
        (methods r.call.driver r.call.operation r.call.args state).1 = some bytes →
      o.driver = (methods r.call.driver r.call.operation r.call.args state).2 →
      t.written = written ++ bytes → Tcp.Ahead t.conn rest → Executing r rest state written (o, t)

variable {methods} {r : Request table} {rest : List Byte} {state : δ} {written : List Byte}
  {p q : Interface δ × Thread}

/-- The next pack of the request is read. -/
theorem parsePack_next {past left : List Group} {g : Group} {t : Thread}
    (hgroups : groups [] r.call.args = past ++ g :: left)
    (hahead : Tcp.Ahead t.conn ((g :: left).flatMap Group.wire ++ rest)) :
    ∃ conn, Tcp.session.parsePack g.pack t.conn = (some g.values, conn) ∧
      Tcp.Ahead conn (left.flatMap Group.wire ++ rest) := by
  have hmem : g ∈ groups [] r.call.args := by
    rw [hgroups]
    exact List.mem_append_right _ List.mem_cons_self
  have hdecodes := (Tcp.parsePack_complete (sized_groups r.sized g hmem)).1 (r.narrow g hmem)
  rw [List.flatMap_cons, List.append_assoc] at hahead
  exact hdecodes t.conn _ hahead

/-- The arguments are those of the request when the method is called. -/
theorem Executing.inside (h : Executing methods r rest state written p)
    (hstep : Inside table methods r.call.driver p q) :
    Executing methods r rest state written q := by
  cases h with
  | @parsing o t past left hgroups hphase hholds hahead hstate hwritten =>
    cases hstep with
    | @pack _ _ operation offset pk packs vs conn hphase' hparse =>
      rw [hphase, Phase.parsing.injEq, Prod.mk.injEq] at hphase'
      obtain ⟨⟨-, rfl⟩, rfl, hpacks⟩ := hphase'
      obtain ⟨g, left, rfl, rfl, rfl⟩ := List.map_eq_cons_iff.mp hpacks
      obtain ⟨conn', hparse', hahead'⟩ := parsePack_next hgroups hahead
      rw [hparse, Prod.mk.injEq, Option.some.injEq] at hparse'
      obtain ⟨rfl, rfl⟩ := hparse'
      refine .parsing (past ++ [g]) left (by simpa using hgroups) ?_ ?_ hahead' hstate hwritten
      · simp
      · simpa using hholds.assign g.values
    | @failed _ _ operation offset pk packs conn members hphase' hparse =>
      rw [hphase, Phase.parsing.injEq, Prod.mk.injEq] at hphase'
      obtain ⟨-, -, hpacks⟩ := hphase'
      obtain ⟨g, left, rfl, rfl, rfl⟩ := List.map_eq_cons_iff.mp hpacks
      obtain ⟨conn', hparse', -⟩ := parsePack_next hgroups hahead
      exact nomatch hparse.symm.trans hparse'
    | @call _ _ operation offset sig res bytes hphase' htable hmethod hresponse =>
      rw [hphase, Phase.parsing.injEq, Prod.mk.injEq] at hphase'
      obtain ⟨⟨-, rfl⟩, -, hpacks⟩ := hphase'
      obtain rfl := List.map_eq_nil_iff.mp hpacks
      rw [List.append_nil] at hgroups
      rw [← hgroups, flatMap_values_groups] at hholds
      obtain rfl := Option.some.inj (r.known.symm.trans htable)
      rw [List.length_map, hholds.map_range, hstate] at hmethod
      subst hmethod
      exact .executed rfl hresponse rfl (by rw [hwritten]) hahead
  | executed hphase =>
    cases hstep with
    | pack hphase' | failed _ hphase' | call hphase' => exact nomatch hphase.symm.trans hphase'

/-- A section of a driver is the call of the next request. -/
theorem At.begins {rs : List (Request table)} (h : At t rs)
    (hbegins : (server table methods).Begins driver (o, t) q) :
    ∃ r rs', rs = r :: rs' ∧ r.call.driver = driver ∧
      Executing methods r (rs'.flatMap Request.encode) o.driver t.written q := by
  obtain ⟨t₁, henter, hsteps⟩ := hbegins
  have hexecute : Enter table driver t t₁ := henter
  cases hexecute with
  | @execute operation sig hphase htable =>
    cases h with
    | reading hphase' | ended hphase' => exact nomatch hphase.symm.trans hphase'
    | @command r rs' hphase' hahead =>
      rw [hphase, Phase.command.injEq, Prod.mk.injEq] at hphase'
      obtain ⟨rfl, rfl⟩ := hphase'
      refine ⟨r, rs', rfl, rfl, ?_⟩
      obtain rfl := Option.some.inj (r.known.symm.trans htable)
      have hstart : Executing methods r (rs'.flatMap Request.encode) o.driver t.written
          (o, { t with
            phase := .parsing (r.call.driver, r.call.operation) 0
              (buildArgsPacks [] (r.call.args.map Value.type)) }) := by
        refine .parsing [] (groups [] r.call.args) rfl ?_ (fun i v h => by simp at h) ?_ rfl rfl
        · rw [map_pack_groups]
          rfl
        · rw [flatMap_wire_groups]
          exact hahead
      induction hsteps with
      | refl => exact hstart
      | tail _ hstep ih => exact ih.inside hstep

/-- When it is over, the request has been answered. -/
theorem At.section_answers {rs : List (Request table)} (h : At t rs)
    (hsection : (server table methods).Section driver (o, t) (o', t')) :
    ∃ r rs' bytes, rs = r :: rs' ∧ r.call.driver = driver ∧
      response r.call.driver r.call.operation
        (methods r.call.driver r.call.operation r.call.args o.driver).1 = some bytes ∧
      o'.driver = (methods r.call.driver r.call.operation r.call.args o.driver).2 ∧
      t'.written = t.written ++ bytes ∧ At t' rs' := by
  obtain ⟨t₁, hbegins, hleave⟩ := hsection
  obtain ⟨r, rs', rfl, rfl, hexecuting⟩ := h.begins hbegins
  have hunlock : Leave t₁ t' := hleave
  cases hunlock with
  | unlock hphase =>
    cases hexecuting with
    | parsing _ _ _ hphase' => exact nomatch hphase.symm.trans hphase'
    | executed _ hresponse hdriver hwritten hahead =>
      exact ⟨r, rs', _, rfl, rfl, hresponse, hdriver, hwritten, .reading rfl hahead⟩

/-- Nothing more comes. -/
theorem readCommand_closed {conn : Tcp.State} (h : Tcp.Ahead conn []) :
    (Tcp.readCommand conn).1 = none := by
  obtain ⟨sock, stale⟩ := conn
  rcases sock with _ | ⟨_ | _, sock⟩
  · rfl
  · exact nomatch h
  · rfl

/-- Outside of the drivers a thread reads headers. -/
theorem At.outside {rs : List (Request table)} (h : At t rs) (hstep : Outside table t t') :
    At t' rs ∧ t'.written = t.written := by
  cases hstep with
  | @readCommand ids conn hphase hread =>
    cases h with
    | command hphase' | ended hphase' => exact nomatch hphase.symm.trans hphase'
    | reading _ hahead =>
      cases rs with
      | nil =>
        have hnone := readCommand_closed hahead
        rw [hread] at hnone
        exact nomatch hnone
      | cons r rs =>
        rw [List.flatMap_cons, Request.encode, List.append_assoc] at hahead
        obtain ⟨conn', hread', hahead'⟩ := Tcp.readCommand_decodes CppClient.length_reserved
          r.call.driver r.call.operation t.conn _ hahead
        rw [hread, Prod.mk.injEq, Option.some.injEq] at hread'
        obtain ⟨rfl, rfl⟩ := hread'
        exact ⟨.command rfl hahead', rfl⟩
  | @closed conn hphase hread =>
    cases h with
    | command hphase' | ended hphase' => exact nomatch hphase.symm.trans hphase'
    | reading _ hahead =>
      cases rs with
      | nil => exact ⟨.ended rfl, rfl⟩
      | cons r rs =>
        rw [List.flatMap_cons, Request.encode, List.append_assoc] at hahead
        obtain ⟨conn', hread', -⟩ := Tcp.readCommand_decodes CppClient.length_reserved
          r.call.driver r.call.operation t.conn _ hahead
        exact nomatch hread.symm.trans hread'
  | @refused ids hphase htable =>
    cases h with
    | reading hphase' | ended hphase' => exact nomatch hphase.symm.trans hphase'
    | @command r rs hphase' hahead =>
      rw [hphase, Phase.command.injEq] at hphase'
      subst hphase'
      exact nomatch htable.symm.trans r.known

end Call

/-! ## Histories -/

section Histories

variable {history : List (ι × Request table)} {methods}

theorem callsOf_append (c : ι) (history : List (ι × Request table)) (e : ι × Request table) :
    callsOf c (history ++ [e]) = callsOf c history ++ if e.1 = c then [e.2] else [] := by
  rw [callsOf, List.filter_append, List.map_append, callsOf]
  split_ifs with h <;> simp [h]

theorem answerAll_append {a b : Answers ι δ} (h : answerAll methods a history = some b)
    (e : ι × Request table) :
    answerAll methods a (history ++ [e]) = answer methods b e := by
  rw [answerAll] at h
  rw [answerAll, List.foldlM_append, h]
  rcases h' : answer methods b e with _ | b'
  · simp [h']
  · simp [h']

theorem answer_eq {a : Answers ι δ} {c : ι} {r : Request table} {bytes : List Byte}
    (h : response r.call.driver r.call.operation
      (methods r.call.driver r.call.operation r.call.args (a.drivers r.call.driver)).1 =
        some bytes) :
    answer methods a (c, r) = some
      ⟨Function.update a.drivers r.call.driver
          (methods r.call.driver r.call.operation r.call.args (a.drivers r.call.driver)).2,
        Function.update a.responses c (a.responses c ++ bytes)⟩ := by
  rw [answer, h]
  rfl

/-- The drivers, and what has been written. -/
def answersOf (w : Monitor.Whole ι (BitVec 16) (Interface δ) Thread) : Answers ι δ :=
  ⟨fun d => (w.object d).driver, fun c => (w.thread c).written⟩

/-- Between whole calls, the history says how the drivers and the sessions came
to be as they are. -/
structure Served (methods : Methods δ) (requests : ι → List (Request table)) (a : Answers ι δ)
    (history : List (ι × Request table))
    (w : Monitor.Whole ι (BitVec 16) (Interface δ) Thread) : Prop where
  answers : answerAll methods a history = some (answersOf w)
  order : ∀ c, ∃ rs, requests c = callsOf c history ++ rs ∧ At (w.thread c) rs

variable {requests : ι → List (Request table)} {a : Answers ι δ}
  {w w' : Monitor.Whole ι (BitVec 16) (Interface δ) Thread}

theorem Served.atomic (h : Served methods requests a history w)
    (hstep : (server table methods).Atomic w w') :
    ∃ history', Served methods requests a history' w' := by
  cases hstep with
  | @outside c t hout =>
    obtain ⟨rs, hrequests, hat⟩ := h.order c
    obtain ⟨hat', hwritten⟩ := hat.outside hout
    refine ⟨history, ?_, ?_⟩
    · have hsame : answersOf (w.setThread c t) = answersOf w := by
        rw [answersOf, answersOf, Answers.mk.injEq]
        refine ⟨rfl, funext fun d => ?_⟩
        rcases eq_or_ne d c with rfl | hne
        · simpa using hwritten
        · simp [hne]
      rw [h.answers, hsame]
    · intro d
      rcases eq_or_ne d c with rfl | hne
      · exact ⟨rs, hrequests, by simpa using hat'⟩
      · simpa [hne] using h.order d
  | @whole c k p hsection =>
    obtain ⟨o', t'⟩ := p
    obtain ⟨rs, hrequests, hat⟩ := h.order c
    obtain ⟨r, rs', bytes, rfl, rfl, hresponse, hdriver, hwritten, hat'⟩ :=
      hat.section_answers hsection
    refine ⟨history ++ [(c, r)], ?_, ?_⟩
    · rw [answerAll_append h.answers, answer_eq hresponse, Option.some.injEq, answersOf,
        Answers.mk.injEq]
      refine ⟨funext fun d => ?_, funext fun d => ?_⟩
      · rcases eq_or_ne d r.call.driver with rfl | hne
        · simp [answersOf, hdriver]
        · simp [answersOf, hne]
      · rcases eq_or_ne d c with rfl | hne
        · simp [answersOf, hwritten]
        · simp [answersOf, hne]
    · intro d
      rcases eq_or_ne d c with rfl | hne
      · refine ⟨rs', ?_, by simpa using hat'⟩
        rw [hrequests, callsOf_append, if_pos rfl, List.append_assoc]
        rfl
      · rw [callsOf_append, if_neg hne.symm, List.append_nil]
        simpa [hne] using h.order d

theorem Served.run (h : Served methods requests a history w)
    (hrun : ReflTransGen (server table methods).Atomic w w') :
    ∃ history', Served methods requests a history' w' := by
  induction hrun with
  | refl => exact ⟨history, h⟩
  | tail _ hstep ih =>
    obtain ⟨history', hserved⟩ := ih
    exact hserved.atomic hstep

theorem Clients.served (clients : Clients ι table) (interfaces : BitVec 16 → Interface δ) :
    Served methods clients.requests (answersOf (clients.start interfaces)) []
      (clients.start interfaces) where
  answers := rfl
  order c := ⟨clients.requests c, rfl, .reading rfl (clients.ahead c)⟩

end Histories

/-! ## All runs -/

section Runs

variable {methods}

/-- The state of the server when the calls of `history` are over: a session that
holds the mutex of a driver is in its next call, before or after its method. -/
structure Linearized (methods : Methods δ) (clients : Clients ι table) (a : Answers ι δ)
    (s : Monitor.State ι (BitVec 16) (Interface δ) Thread)
    (history : List (ι × Request table)) : Prop where
  order : ∀ c, callsOf c history <+: clients.requests c
  drivers : ∀ d, s.Unlocked d → (s.object d).driver = a.drivers d
  written : ∀ c, s.held c = none → (s.thread c).written = a.responses c
  calling : ∀ c d, s.held c = some d → ∃ r rs,
    clients.requests c = callsOf c history ++ r :: rs ∧ r.call.driver = d ∧
      ((s.object d).driver = a.drivers d ∧ (s.thread c).written = a.responses c ∨
        ∃ b, answer methods a (c, r) = some b ∧
          (s.object d).driver = b.drivers d ∧ (s.thread c).written = b.responses c)
  ended : ∀ c, (s.thread c).phase = .ended → callsOf c history = clients.requests c

variable {o : Interface δ} {t : Thread}

/-- Every result can be sent. -/
def Responds (methods : Methods δ) (table : Table) : Prop :=
  ∀ (r : Request table) (state : δ), (response r.call.driver r.call.operation
    (methods r.call.driver r.call.operation r.call.args state).1).isSome

theorem Executing.progress {r : Request table} {rest : List Byte} {state : δ} {written : List Byte}
    (hresponds : Responds methods table) (h : Executing methods r rest state written (o, t)) :
    (∃ q, Inside table methods r.call.driver (o, t) q) ∨ ∃ t', Leave t t' := by
  cases h with
  | parsing past left hgroups hphase hholds hahead =>
    refine .inl ?_
    cases left with
    | nil =>
      obtain ⟨bytes, hbytes⟩ := Option.isSome_iff_exists.mp (hresponds r o.driver)
      rw [List.append_nil] at hgroups
      rw [← hgroups, flatMap_values_groups] at hholds
      have hargs := hholds.map_range
      rw [← List.length_map Value.type] at hargs
      rw [← hargs] at hbytes
      exact ⟨_, .call hphase r.known rfl hbytes⟩
    | cons g left =>
      obtain ⟨conn, hparse, -⟩ := parsePack_next hgroups hahead
      exact ⟨_, .pack hphase hparse⟩
  | executed hphase => exact .inr ⟨_, .unlock hphase⟩

theorem At.progress {rs : List (Request table)} (h : At t rs) :
    t.phase = .ended ∨ (∃ t', Outside table t t') ∨ ∃ d t', Enter table d t t' := by
  cases h with
  | reading hphase =>
    rcases hread : Tcp.readCommand t.conn with ⟨_ | ids, conn⟩
    · exact .inr (.inl ⟨_, .closed hphase hread⟩)
    · exact .inr (.inl ⟨_, .readCommand hphase hread⟩)
  | command hphase => exact .inr (.inr ⟨_, _, .execute hphase (Request.known _)⟩)
  | ended hphase => exact .inl hphase

/-- Nothing happens after the last session has ended. -/
theorem stuck_of_ended {s : Monitor.State ι (BitVec 16) (Interface δ) Thread}
    (h : ∀ c, s.held c = none ∧ (s.thread c).phase = .ended)
    (s' : Monitor.State ι (BitVec 16) (Interface δ) Thread) :
    ¬ (server table methods).Step s s' := by
  intro hstep
  cases hstep with
  | @outside c t _ hout =>
    have hended := (h c).2
    cases hout with
    | readCommand hphase | closed hphase | refused hphase => exact nomatch hphase.symm.trans hended
  | @lock c k t _ _ henter =>
    have hended := (h c).2
    cases henter with
    | execute hphase => exact nomatch hphase.symm.trans hended
  | @inside c k p hheld | @unlock c k t hheld => exact nomatch (h c).1.symm.trans hheld

/-- When no thread can go on, all calls are over: the last state is that of whole
calls in some order. -/
theorem stuck_served (hresponds : Responds methods table) (clients : Clients ι table)
    (interfaces : BitVec 16 → Interface δ)
    {s : Monitor.State ι (BitVec 16) (Interface δ) Thread}
    (h : ReflTransGen (server table methods).Step (clients.start interfaces).free s)
    (hstuck : ∀ s', ¬ (server table methods).Step s s') :
    ∃ history,
      answerAll methods ⟨fun d => (interfaces d).driver, fun _ => []⟩ history =
          some (answersOf s.toWhole) ∧
        ∀ c, callsOf c history = clients.requests c := by
  obtain ⟨w, hrun, hexplains⟩ := Monitor.explained _ h
  obtain ⟨history, hserved⟩ := (clients.served interfaces).run hrun
  have hidle : ∀ c, s.held c = none := by
    intro c
    by_contra hheld
    obtain ⟨d, hd⟩ := Option.ne_none_iff_exists'.mp hheld
    obtain ⟨rs, -, hat⟩ := hserved.order c
    obtain ⟨r, rs', -, rfl, hexecuting⟩ := hat.begins (hexplains.begins c d hd)
    rcases hexecuting.progress hresponds with ⟨q, hq⟩ | ⟨t', ht'⟩
    · exact hstuck _ (.inside hd hq)
    · exact hstuck _ (.unlock hd ht')
  have hfree : ∀ d, s.Unlocked d := fun d c hc => nomatch (hidle c).symm.trans hc
  have hwhole : s.toWhole = w := by
    have hobject : s.object = w.object := funext fun d => hexplains.object d (hfree d)
    have hthread : s.thread = w.thread := funext fun c => hexplains.thread c (hidle c)
    rw [Monitor.Whole.mk.injEq]
    exact ⟨hobject, hthread⟩
  refine ⟨history, by rw [hwhole]; exact hserved.answers, fun c => ?_⟩
  obtain ⟨rs, hrequests, hat⟩ := hserved.order c
  rw [← hexplains.thread c (hidle c)] at hat
  rcases hat.progress with hended | ⟨t', ht'⟩ | ⟨d, t', ht'⟩
  · cases hat with
    | reading hphase | command hphase => exact nomatch hphase.symm.trans hended
    | ended => rw [hrequests, List.append_nil]
  · exact absurd (.outside (hidle c) ht') (hstuck _)
  · exact absurd (.lock (hidle c) (hfree d) ht') (hstuck _)

end Runs

/-! ## Clients of a counter -/

/-- Operation 0 of driver 2 counts its calls. -/
def counterTable : Table := fun driver operation =>
  if driver = 2 ∧ operation = 0 then some [] else none

def counterMethods : Methods ℕ := fun _ _ _ n =>
  (some (.scalar ⟨.uint32, BitVec.ofNat 32 (n + 1)⟩), n + 1)

def count : Request counterTable where
  call := ⟨2, 0, []⟩
  known := rfl
  sized _ h := nomatch h
  narrow _ h := nomatch h

/-- Each client counts once. -/
def counters (ι : Type) : Clients ι counterTable where
  requests _ := [count]
  conn _ := ⟨Socket.bytewise count.encode, fun _ => ⟨fun _ => 0, fun _ => [], []⟩⟩
  ahead _ := Socket.flat_bytewise _

def zeros : BitVec 16 → Interface ℕ := fun _ => ⟨0, fun _ _ => .string []⟩

end Koheron.Concurrent
