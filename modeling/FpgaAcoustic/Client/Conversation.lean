-- SUMMARY: Clients that call and receive in turn: from the method of a driver to the value that a C++ or a Python client gets.
import FpgaAcoustic.Client.CppReceive
import FpgaAcoustic.Server.Concurrent

/-!
# Conversations

A client receives the result of each call before its next one, and nothing for a
`void` method. The results of all clients come from one order of whole calls.
-/

namespace Koheron.Conversation

open Bytes Transition Relation Concurrent

open PyReceive (Ahead)

/-! ## Receivers -/

/-- How a client receives, and what it makes of what a method returns. -/
structure Receiver where
  Call : Type
  Result : Type
  run : BitVec 16 → BitVec 16 → Call → Parser Socket Result
  Returned : ReturnValue → Call → Result → Prop
  sends : ∀ {v call result}, Returned v call result → v.Sized ∧ v.Fits
  decodes : ∀ {v call result}, Returned v call result → ∀ driver operation,
    Parser.Decodes Ahead (run driver operation call)
      (serialize (Response.header driver operation) ++ v.wire) result

/-- The C++ client, built with or without assertions. -/
def cpp (asserts : Bool) : Receiver where
  Call := CppReceive.Call
  Result := ReturnValue
  run driver operation call := call.run ⟨asserts, driver, operation⟩
  Returned v call result :=
    result = v ∧ CppReceive.Matches v call ∧ v.Sized ∧ v.Fits ∧ CppReceive.Countable v
  sends h := ⟨h.2.2.1, h.2.2.2.1⟩
  decodes h driver operation := by
    obtain ⟨rfl, hmatches, -, hfits, hcount⟩ := h
    exact CppReceive.run_decodes hmatches hfits hcount asserts driver operation

/-- The Python client. -/
def python : Receiver where
  Call := PyReceive.Call
  Result := PyReceive.Received
  run _ _ call := call.run
  Returned v call result := PyReceive.Matches v call result ∧ v.Sized ∧ v.Fits
  sends h := h.2
  decodes h driver operation := PyReceive.run_decodes h.1 h.2.1 driver operation

namespace Receiver

variable (R : Receiver)

/-- A client that receives after each of these calls. -/
def receiveAll (expects : BitVec 16 → BitVec 16 → Option R.Call) :
    List Koheron.Call → Parser Socket (List (Option R.Result))
  | [] => Parser.pure []
  | c :: cs =>
    match expects c.driver c.operation with
    | none => (receiveAll expects cs).map (none :: ·)
    | some call => (R.run c.driver c.operation call).bind fun result =>
        (receiveAll expects cs).map (some result :: ·)

/-- What a method returns is received, and nothing is if it returns nothing. -/
inductive Returns : Option ReturnValue → Option R.Call → Option R.Result → Prop
  | void : Returns none none none
  | value {v : ReturnValue} {call : R.Call} {result : R.Result} : R.Returned v call result →
      Returns (some v) (some call) (some result)

end Receiver

/-! ## Outcomes -/

variable {ι δ : Type} [DecidableEq ι] {table : Table} (methods : Methods δ)

/-- What the methods return when the calls are executed in this order. -/
def outcomes (drivers : BitVec 16 → δ) :
    List (ι × Request table) → List (ι × Request table × Option ReturnValue)
  | [] => []
  | (c, r) :: history =>
    let res := methods r.call.driver r.call.operation r.call.args (drivers r.call.driver)
    (c, r, res.1) :: outcomes (Function.update drivers r.call.driver res.2) history

/-- Those of one client. -/
def outcomesOf (c : ι) (drivers : BitVec 16 → δ) (history : List (ι × Request table)) :
    List (Request table × Option ReturnValue) :=
  ((outcomes methods drivers history).filter fun e => e.1 = c).map Prod.snd

/-- The bytes of an outcome, if it can be sent. -/
def sentFor (e : Request table × Option ReturnValue) : List Byte :=
  (response e.1.call.driver e.1.call.operation e.2).getD []

variable {methods} {c : ι} {drivers : BitVec 16 → δ} {history : List (ι × Request table)}

theorem outcomesOf_cons (c d : ι) (r : Request table) (drivers : BitVec 16 → δ)
    (history : List (ι × Request table)) :
    outcomesOf methods c drivers ((d, r) :: history) =
      let res := methods r.call.driver r.call.operation r.call.args (drivers r.call.driver)
      (if d = c then [(r, res.1)] else []) ++
        outcomesOf methods c (Function.update drivers r.call.driver res.2) history := by
  rw [outcomesOf, outcomes]
  by_cases h : d = c
  · simp [h, outcomesOf]
  · simp [h, outcomesOf]

theorem map_fst_outcomesOf (c : ι) (drivers : BitVec 16 → δ)
    (history : List (ι × Request table)) :
    (outcomesOf methods c drivers history).map Prod.fst = callsOf c history := by
  induction history generalizing drivers with
  | nil => rfl
  | cons e history ih =>
    obtain ⟨d, r⟩ := e
    rw [outcomesOf_cons, List.map_append, ih, callsOf, callsOf]
    by_cases h : d = c
    · simp [h]
    · simp [h]

/-- What is sent to a client is what its calls return. -/
theorem responses_outcomesOf {a b : Answers ι δ} (h : answerAll methods a history = some b)
    (c : ι) :
    b.responses c = a.responses c ++ (outcomesOf methods c a.drivers history).flatMap sentFor := by
  induction history generalizing a with
  | nil =>
    obtain rfl := Option.some.inj h
    simp [outcomesOf, outcomes]
  | cons e history ih =>
    obtain ⟨d, r⟩ := e
    obtain ⟨a₁, hanswer, hrest⟩ := Option.bind_eq_some_iff.mp h
    obtain ⟨bytes, hbytes, rfl⟩ := Option.map_eq_some_iff.mp hanswer
    rw [ih hrest, outcomesOf_cons]
    by_cases hd : d = c
    · subst hd
      simp [sentFor, hbytes]
    · simp [hd, Ne.symm hd]

/-! ## What the clients receive -/

section Receive

variable {R : Receiver} {expects : BitVec 16 → BitVec 16 → Option R.Call}

/-- Each outcome is received, whatever the chunks. -/
theorem receiveAll_decodes {es : List (Request table × Option ReturnValue)}
    (h : ∀ e ∈ es, ∃ result,
      R.Returns e.2 (expects e.1.call.driver e.1.call.operation) result) :
    ∃ results,
      Parser.Decodes Ahead (R.receiveAll expects (es.map fun e => e.1.call))
        (es.flatMap sentFor) results ∧
      List.Forall₂
        (fun e result => R.Returns e.2 (expects e.1.call.driver e.1.call.operation) result)
        es results := by
  induction es with
  | nil => exact ⟨[], Parser.Decodes.pure [], .nil⟩
  | cons e es ih =>
    obtain ⟨⟨result, hresult⟩, hes⟩ := List.forall_mem_cons.mp h
    obtain ⟨results, hdecodes, hforall⟩ := ih hes
    refine ⟨result :: results, ?_, .cons hresult hforall⟩
    obtain ⟨r, v⟩ := e
    rw [List.map_cons, List.flatMap_cons, Receiver.receiveAll]
    generalize hcall : expects r.call.driver r.call.operation = call at hresult
    cases hresult with
    | void => exact hdecodes.map _
    | @value v call result hreturned =>
      obtain ⟨hsized, hfits⟩ := R.sends hreturned
      have hsent : sentFor (r, some v) =
          serialize (Response.header r.call.driver r.call.operation) ++ v.wire := by
        rw [sentFor, response, Response.send_eq hsized, if_pos hfits, Option.getD_some]
      rw [hsent]
      exact (R.decodes hreturned _ _).bind (hdecodes.map _)

theorem mem_outcomesOf {c : ι} {drivers : BitVec 16 → δ} {history : List (ι × Request table)}
    {e : Request table × Option ReturnValue} (h : e ∈ outcomesOf methods c drivers history) :
    ∃ state, e.2 =
      (methods e.1.call.driver e.1.call.operation e.1.call.args state).1 := by
  induction history generalizing drivers with
  | nil => exact absurd h List.not_mem_nil
  | cons f history ih =>
    obtain ⟨d, r⟩ := f
    rw [outcomesOf_cons, List.mem_append] at h
    rcases h with hhead | htail
    · split_ifs at hhead with hd
      · obtain rfl := List.mem_singleton.mp hhead
        exact ⟨_, rfl⟩
      · exact absurd hhead List.not_mem_nil
    · exact ih htail

end Receive

/-- The methods return what the clients expect of them. -/
def Typed (methods : Methods δ) (table : Table) (R : Receiver)
    (expects : BitVec 16 → BitVec 16 → Option R.Call) : Prop :=
  ∀ (r : Request table) (state : δ), ∃ result,
    R.Returns (methods r.call.driver r.call.operation r.call.args state).1
      (expects r.call.driver r.call.operation) result

theorem Typed.responds {R : Receiver} {expects : BitVec 16 → BitVec 16 → Option R.Call}
    (h : Typed methods table R expects) : Responds methods table := by
  intro r state
  obtain ⟨result, hresult⟩ := h r state
  generalize (methods r.call.driver r.call.operation r.call.args state).1 = v at hresult
  generalize expects r.call.driver r.call.operation = call at hresult
  cases hresult with
  | void => rfl
  | value hreturned =>
    obtain ⟨hsized, hfits⟩ := R.sends hreturned
    rw [response, Response.send_eq hsized, if_pos hfits]
    rfl

/-- A C++ client and a Python client. -/
def mixed : Bool → Receiver
  | true => cpp true
  | false => python

def mixedExpects : (c : Bool) → BitVec 16 → BitVec 16 → Option (mixed c).Call
  | true, _, _ => some (CppReceive.Call.scalar .uint32)
  | false, _, _ => some (PyReceive.Call.recv [.uint32])

theorem mixed_typed (c : Bool) :
    Typed counterMethods counterTable (mixed c) (mixedExpects c) := by
  intro r n
  let d : Serdes.Datum := ⟨.uint32, BitVec.ofNat 32 (n + 1)⟩
  have hsized : (ReturnValue.scalar d.server).Sized := ReturnValue.sized_tuple [d.server]
  have hfits : (ReturnValue.scalar d.server).Fits := show 4 ≤ CppClient.scalarPackLen by decide
  cases c with
  | true => exact ⟨_, .value ⟨rfl, .scalar d, hsized, hfits, trivial⟩⟩
  | false => exact ⟨_, .value ⟨@PyReceive.Matches.scalar d.server trivial, hsized, hfits⟩⟩

end Koheron.Conversation
