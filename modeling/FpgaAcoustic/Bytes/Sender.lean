-- SUMMARY: Senders that hand each message to one call of the system, and when the bytes on a connection stay framed.
import FpgaAcoustic.Bytes.Memory

/-!
# Senders

A sender writes a message with a single call. The call may take a part of the
message, or fail. What the sender makes of its return value decides whether the
connection is used again.
-/

namespace Bytes

/-! ## The call -/

/-- What the system does with a call: it has room for `n` bytes, or fails. -/
inductive Outcome
  | room (n : ℕ)
  | error
  deriving DecidableEq, Repr

namespace Outcome

/-- The number of bytes that are taken of `count`. -/
def taken (count : ℕ) : Outcome → ℕ
  | room n => min n count
  | error => 0

/-- What the call returns. -/
def returned (count : ℕ) : Outcome → ℤ
  | room n => (min n count : ℕ)
  | error => -1

theorem taken_le (count : ℕ) (o : Outcome) : o.taken count ≤ count := by
  cases o with
  | room n => exact Nat.min_le_right n count
  | error => exact Nat.zero_le count

end Outcome

/-- A message and what becomes of the call for it. -/
structure Attempt where
  message : List Byte
  outcome : Outcome

/-! ## Connections -/

/-- A connection, with the messages that were handed to the system for it. -/
structure Link where
  wire : List Byte
  handed : List (List Byte)
  stopped : Bool

namespace Link

def fresh : Link := ⟨[], [], false⟩

/-- The message is handed over, and its first `n` bytes are taken. -/
def put (l : Link) (message : List Byte) (n : ℕ) : Link :=
  { l with
    wire := l.wire ++ message.take n
    handed := l.handed ++ [message] }

/-- Each message is on the wire as a whole. Only after the last use of the
connection may the last message be cut off. -/
def Framed (l : Link) : Prop :=
  l.wire = l.handed.flatten ∨
    l.stopped = true ∧ ∃ whole last part, l.handed = whole ++ [last] ∧ part <+: last ∧
      l.wire = whole.flatten ++ part

/-- The messages on the wire are whole, and the connection is in use. -/
structure Whole (l : Link) : Prop where
  wire : l.wire = l.handed.flatten
  used : l.stopped = false

theorem whole_fresh : fresh.Whole := ⟨rfl, rfl⟩

theorem Whole.framed {l : Link} (h : l.Whole) : l.Framed := .inl h.wire

end Link

/-- How many bytes of a message of `size` bytes the call is for, and whether the
connection is given up where it returns `returned`. -/
structure Sender where
  count : ℕ → ℕ
  stops : (size : ℕ) → (returned : ℤ) → Bool
  count_le : ∀ size, count size ≤ size

namespace Sender

variable (S : Sender)

/-- The number of bytes of the message that are taken. -/
def taken (a : Attempt) : ℕ := a.outcome.taken (S.count a.message.length)

def gives (a : Attempt) : Bool :=
  S.stops a.message.length (a.outcome.returned (S.count a.message.length))

/-- One message, unless the connection is given up. -/
def step (l : Link) (a : Attempt) : Link :=
  if l.stopped then l
  else { l.put a.message (S.taken a) with stopped := S.gives a }

def run (l : Link) (as : List Attempt) : Link := as.foldl S.step l

/-- The attempts that are made: those up to the first after which the connection
is given up. -/
def made : List Attempt → List Attempt
  | [] => []
  | a :: as => a :: if S.gives a then [] else made as

/-- The message is taken as a whole, or the connection is given up. -/
def Settles (a : Attempt) : Prop := S.taken a = a.message.length ∨ S.gives a = true

variable {S}

theorem taken_le (a : Attempt) : S.taken a ≤ a.message.length :=
  (a.outcome.taken_le _).trans (S.count_le _)

theorem run_stopped {l : Link} (h : l.stopped = true) (as : List Attempt) : S.run l as = l := by
  induction as with
  | nil => rfl
  | cons a as ih =>
    have hstep : S.step l a = l := if_pos h
    rw [run, List.foldl_cons, hstep]
    exact ih

section Step

variable {l : Link} {a : Attempt}

theorem step_used (h : l.stopped = false) :
    S.step l a = { l.put a.message (S.taken a) with stopped := S.gives a } := by
  rw [step, h]
  rfl

theorem step_gives (h : l.stopped = false) (ha : S.gives a = true) :
    S.step l a = { l.put a.message (S.taken a) with stopped := true } := by
  rw [step_used h, ha]

theorem step_keeps (h : l.stopped = false) (ha : S.gives a = false) :
    S.step l a = l.put a.message (S.taken a) := by
  rw [step_used h, ha, ← h]
  rfl

/-- A step from whole messages keeps the connection framed just when it settles. -/
theorem step_framed_iff (h : l.Whole) : (S.step l a).Framed ↔ S.Settles a := by
  have hpart : a.message.take (S.taken a) <+: a.message := List.take_prefix _ _
  rw [step_used h.used, Link.Framed, Link.put]
  constructor
  · rintro (hwire | ⟨hstopped, -⟩)
    · rw [List.flatten_append, List.flatten_singleton, h.wire, List.append_cancel_left_eq] at hwire
      have hlen := congrArg List.length hwire
      rw [List.length_take_of_le (taken_le a)] at hlen
      exact .inl hlen
    · exact .inr hstopped
  · rintro (htaken | hgives)
    · left
      rw [htaken, List.take_length, h.wire, List.flatten_append, List.flatten_singleton]
    · right
      exact ⟨hgives, l.handed, a.message, _, rfl, hpart, by rw [h.wire]⟩

/-- Where the step settles and the connection stays in use, all messages are whole again. -/
theorem step_whole (h : l.Whole) (ha : S.Settles a) (hgives : S.gives a = false) :
    (S.step l a).Whole := by
  have htaken : S.taken a = a.message.length := by
    rcases ha with htaken | hstops
    · exact htaken
    · rw [hgives] at hstops
      contradiction
  rw [step_used h.used, htaken, Link.put, List.take_length]
  exact ⟨by rw [h.wire, List.flatten_append, List.flatten_singleton], hgives⟩

end Step

/-- The connection is framed at all times just when every attempt that is made settles. -/
theorem run_framed_iff {l : Link} (h : l.Whole) (as : List Attempt) :
    (∀ k, (S.run l (as.take k)).Framed) ↔ ∀ a ∈ S.made as, S.Settles a := by
  induction as generalizing l with
  | nil =>
    simp only [List.take_nil, made, List.not_mem_nil, false_implies, implies_true, iff_true]
    exact fun _ => h.framed
  | cons a as ih =>
    have hsplit : (∀ k, (S.run l ((a :: as).take k)).Framed) ↔
        ∀ k, (S.run (S.step l a) (as.take k)).Framed := by
      constructor
      · intro hall k
        exact hall (k + 1)
      · intro hall k
        cases k with
        | zero => exact h.framed
        | succ k => exact hall k
    rw [hsplit, made, List.forall_mem_cons]
    cases hgives : S.gives a with
    | true =>
      have hstopped : (S.step l a).stopped = true := by rw [step_used h.used, hgives]
      have hsettles : S.Settles a := .inr hgives
      have hframed := (step_framed_iff h).mpr hsettles
      simp only [run_stopped hstopped]
      simpa [hsettles] using hframed
    | false =>
      constructor
      · intro hall
        have hsettles := (step_framed_iff h).mp (hall 0)
        refine ⟨hsettles, ?_⟩
        exact (ih (step_whole h hsettles hgives)).mp hall
      · rintro ⟨hsettles, hrest⟩
        exact (ih (step_whole h hsettles hgives)).mpr hrest

end Sender

end Bytes
