-- SUMMARY: Clients that build their commands from arguments: from a C++ or a Python call to the method of a driver and back to the caller.
import FpgaAcoustic.Client.Conversation
import FpgaAcoustic.Client.PyClient

/-!
# Calls

What a client builds from the arguments of a call is the request for the values
that the arguments stand for. With what the clients receive, this makes a call a
call of the method, for any number of clients of either kind.
-/

namespace Koheron.Calls

open Bytes Transition Relation Concurrent Conversation

/-! ## Senders -/

/-- How a client builds a command, and the request that it stands for. -/
structure Sender (table : Table) where
  Arg : Type
  build : BitVec 16 → BitVec 16 → List Arg → Option (List Byte)
  Means : List Arg → Request table → Prop
  build_eq : ∀ {args r}, Means args r →
    build r.call.driver r.call.operation args = some r.encode

variable {table : Table}

/-- The C++ client. -/
def cpp : Sender table where
  Arg := Value
  build := CppClient.buildCommand
  Means args r := r.call.args = args ∧ ∀ g ∈ groups [] args, CppClient.Staged g
  build_eq := by
    rintro args r ⟨rfl, hstaged⟩
    exact CppClient.buildCommand_eq _ _ r.sized hstaged

section Python

variable (libs : PyClient.Libs)

theorem pyWire_eq {v : Value} (h : PyClient.ValueIntact v) : PyClient.pyWire v = v.wire := by
  cases v with
  | string bytes =>
    obtain ⟨hascii, -⟩ := h
    rw [PyClient.pyWire, Value.wire, hascii]
    rfl
  | scalar d => rfl
  | array ty es => rfl
  | vector ty es => rfl

/-- The Python client, with the published parameters of the operation. -/
def python : Sender table where
  Arg := PyClient.Arg
  build driver operation args :=
    (table driver operation).bind fun sig => PyClient.makeCommand libs driver operation sig args
  Means args r :=
    let sig := r.call.args.map Value.type
    (PyClient.buildPayload libs sig args).isSome ∧
      PyClient.DenotesAll libs sig args r.call.args ∧ ∀ p ∈ sig.zip args, PyClient.Intact p.1 p.2
  build_eq := by
    rintro args r ⟨hsome, hdenotes, hintact⟩
    obtain ⟨payload, hpayload⟩ := Option.isSome_iff_exists.mp hsome
    obtain ⟨hwire, -⟩ := PyClient.buildPayload_of_denotesAll hpayload hdenotes
    rw [r.known, Option.bind_some, PyClient.makeCommand_eq hpayload, hwire]
    have hvalues := (PyClient.forall_intact_iff hdenotes).mp hintact
    rw [List.flatMap_congr fun v hv => pyWire_eq (hvalues v hv)]
    rfl

end Python

end Koheron.Calls
