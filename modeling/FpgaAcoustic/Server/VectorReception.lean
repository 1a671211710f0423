-- SUMMARY: recv of a vector over TCP, for prefixes that do not arrive and lengths that are no multiple of the element size.
import FpgaAcoustic.Server.BufferBounds
import FpgaAcoustic.Server.Truncation

/-!
# Receiving a vector

The length is divided by the size of an element before it is tested. So the
error code of a prefix that cannot be read is tested as a number of elements,
and the remainder of a length is not read. The end of the stream is no error.
-/

namespace Koheron.Tcp

open Bytes

variable {ty : Scalar} {vec : List ty.Val} {s : State}

/-- The `n` bytes that the prefix announces arrive, and `rest` after them. -/
def Arrives (n : BitVec 32) (body rest : List Byte) (s : State) : Prop :=
  s.sock.flat = append32 n ++ (body ++ rest) ∧ body.length = n.toNat

/-- How reading the prefix ends. -/
def prefixOutcome (s : State) : Socket.Outcome := (s.sock.receive Scalar.uint32.size).1

/-- A prefix that cannot be read is reported, with the vector as it was. A vector
whose bytes all arrive takes them, and has the elements they are whole for. -/
structure ReceivesVector (ty : Scalar) (vec : List ty.Val) (s : State) : Prop where
  unread : prefixOutcome s ≠ .full →
    (recvVector ty vec s).1.1 < 0 ∧ (recvVector ty vec s).1.2 = vec
  whole : ∀ n body rest, Arrives n body rest s →
    (recvVector ty vec s).2.sock.flat = rest ∧
      (recvVector ty vec s).1.2 = readElems ty (n.toNat / ty.size) (Memory.ofBytes body)

/-- The prefix is there and no bytes of a vector that is are left over, or an
error stops the read of the prefix and an element is one byte. -/
def Aligned (ty : Scalar) (s : State) : Prop :=
  match prefixOutcome s with
  | .full => ∀ n body rest, Arrives n body rest s → ty.size ∣ n.toNat
  | .closed => False
  | .error => ty.size = 1

/-! ## The prefix -/

theorem prefixOutcome_of_arrives {n : BitVec 32} {body rest : List Byte}
    (h : Arrives n body rest s) : prefixOutcome s = .full := by
  obtain ⟨sock', hrec, -⟩ := Socket.receive_full h.1
  have hlen : (append32 n).length = Scalar.uint32.size := rfl
  rw [hlen] at hrec
  rw [prefixOutcome, hrec]

/-- After an error the length is the error code. -/
theorem getPackLength_error (h : prefixOutcome s = .error) :
    ∃ s', getPackLength s = (-1, s') := by
  have hrcv : (s.next.2.sock.receive Scalar.uint32.size).1 = .error := h
  unfold getPackLength rcvNBytes
  simp only [hrcv]
  exact ⟨_, if_pos (by decide)⟩

variable (vec) in
/-- The error code of a prefix counts as no element, unless an element is one byte. -/
theorem recvVector_error (h : prefixOutcome s = .error) :
    ((recvVector ty vec s).1.1 < 0 ∧ (recvVector ty vec s).1.2 = vec) ↔ ty.size = 1 := by
  obtain ⟨s', hlen⟩ := getPackLength_error h
  unfold recvVector
  simp only [hlen]
  rcases Nat.eq_or_lt_of_le (Nat.one_le_iff_ne_zero.mpr ty.size_pos.ne') with hone | hlarge
  · have hdiv : (-1 : ℤ).tdiv ty.size = -1 := by
      rw [← hone]
      rfl
    rw [hdiv, if_pos (by decide)]
    exact iff_of_true ⟨neg_one_lt_zero, rfl⟩ hone.symm
  · have hdiv : (-1 : ℤ).tdiv ty.size = 0 := by
      rw [Int.neg_tdiv, Int.tdiv_eq_zero_of_lt (by decide) (by omega)]
      rfl
    rw [hdiv, if_neg (by decide)]
    refine iff_of_false ?_ hlarge.ne'
    rintro ⟨hneg, -⟩
    simp only [rcvNBytes, Int.toNat_zero, Nat.zero_mul, Socket.receive_zero] at hneg
    exact absurd hneg (by decide)

/-- After the end of the stream the length is whatever the buffer holds, and
nothing is an error. -/
theorem recvVector_closed (h : prefixOutcome s = .closed) : 0 ≤ (recvVector ty vec s).1.1 := by
  obtain ⟨n, s', hlen, hdry⟩ := getPackLength_starved (.inr (Socket.short_of_receive h))
  exact (recvVector_runsDry hlen (.inl hdry)).1

/-! ## The elements -/

variable (ty vec) in
/-- The bytes that are taken are those of the whole elements. -/
theorem recvVector_arrives {n : BitVec 32} {body rest : List Byte} (h : Arrives n body rest s) :
    (recvVector ty vec s).2.sock.flat = body.drop (n.toNat / ty.size * ty.size) ++ rest ∧
      (recvVector ty vec s).1.2 = readElems ty (n.toNat / ty.size) (Memory.ofBytes body) := by
  obtain ⟨s₁, hlen, h₁⟩ := getPackLength_full h.1
  have hdiv : (n.toNat : ℤ).tdiv ty.size = (n.toNat / ty.size : ℕ) := rfl
  have hle : n.toNat / ty.size * ty.size ≤ body.length := by
    rw [h.2]
    exact Nat.div_mul_le_self _ _
  have hsplit : Ahead s₁ (body.take (n.toNat / ty.size * ty.size) ++
      (body.drop (n.toNat / ty.size * ty.size) ++ rest)) := by
    rw [← List.append_assoc, List.take_append_drop]
    exact h₁
  obtain ⟨s', hrcv, hrest⟩ := rcvNBytes_full hsplit
    (Memory.ofBytes (images ty (vec.takeD (n.toNat / ty.size) ty.zero)))
  rw [List.length_take_of_le hle] at hrcv
  unfold recvVector
  simp only [hlen, hdiv]
  rw [if_neg (Int.natCast_nonneg _).not_gt, Int.toNat_natCast]
  simp only [hrcv]
  refine ⟨hrest, ?_⟩
  -- The elements are in the bytes that are written.
  refine local_readElems ty _ _ _ ?_
  have hwritten := Memory.write_starts
    (Memory.ofBytes (images ty (vec.takeD (n.toNat / ty.size) ty.zero)))
    (body.take (n.toNat / ty.size * ty.size))
  have hbody : (Memory.ofBytes body).Starts (body.take (n.toNat / ty.size * ty.size)) := by
    have hparts : (Memory.ofBytes body).Starts (body.take (n.toNat / ty.size * ty.size) ++
        body.drop (n.toNat / ty.size * ty.size)) := by
      rw [List.take_append_drop]
      exact Memory.ofBytes_starts body
    exact (Memory.starts_append.mp hparts).1
  unfold Memory.Starts at hwritten hbody
  rw [List.length_take_of_le hle] at hwritten hbody
  rw [hwritten, hbody]

/-- A vector is received whole just when the bytes it is sent in are. -/
theorem whole_iff {n : BitVec 32} {body rest : List Byte} (h : Arrives n body rest s) :
    ((recvVector ty vec s).2.sock.flat = rest ∧
      (recvVector ty vec s).1.2 = readElems ty (n.toNat / ty.size) (Memory.ofBytes body)) ↔
      ty.size ∣ n.toNat := by
  obtain ⟨hflat, hvec⟩ := recvVector_arrives ty vec h
  rw [hflat, hvec]
  constructor
  · rintro ⟨hrest, -⟩
    have hlen := congrArg List.length hrest
    rw [List.length_append, List.length_drop, h.2] at hlen
    have hle := Nat.div_mul_le_self n.toNat ty.size
    exact Dvd.intro_left (n.toNat / ty.size) (by omega)
  · intro hdvd
    rw [Nat.div_mul_cancel hdvd, ← h.2, List.drop_length, List.nil_append, h.2]
    exact ⟨rfl, rfl⟩

theorem receivesVector_iff (ty : Scalar) (vec : List ty.Val) (s : State) :
    ReceivesVector ty vec s ↔ Aligned ty s := by
  unfold Aligned
  cases hout : prefixOutcome s with
  | full =>
    constructor
    · exact fun h n body rest harrives => (whole_iff harrives).mp (h.whole n body rest harrives)
    · intro h
      refine ⟨fun hne => absurd hout hne, ?_⟩
      exact fun n body rest harrives => (whole_iff harrives).mpr (h n body rest harrives)
  | closed =>
    refine iff_of_false ?_ id
    intro h
    have hneg := (h.unread (by rw [hout]; decide)).1
    exact absurd hneg (recvVector_closed hout).not_gt
  | error =>
    rw [← recvVector_error vec hout]
    constructor
    · exact fun h => h.unread (by rw [hout]; decide)
    · intro h
      refine ⟨fun _ => h, fun n body rest harrives => ?_⟩
      rw [prefixOutcome_of_arrives harrives] at hout
      exact absurd hout (by decide)

/-- Six bytes for elements of four. -/
def sixBytes : State where
  sock := .bytewise (append32 6 ++ [1, 2, 3, 4, 5, 6])
  stale _ := ⟨fun _ => 0, fun _ => [], []⟩

/-- The last two bytes are left for the next command. -/
theorem sixBytes_not_receivesVector :
    Arrives 6 [1, 2, 3, 4, 5, 6] [] sixBytes ∧
      (recvVector .uint32 [] sixBytes).2.sock.flat = [5, 6] ∧
      ¬ ReceivesVector .uint32 [] sixBytes := by
  have harrives : Arrives 6 [1, 2, 3, 4, 5, 6] [] sixBytes := ⟨Socket.flat_bytewise _, rfl⟩
  have hflat := (recvVector_arrives .uint32 [] harrives).1
  refine ⟨harrives, hflat, fun h => ?_⟩
  rw [(h.whole 6 _ _ harrives).1] at hflat
  exact absurd hflat (by decide)

/-- The end of the stream before a prefix is no error. -/
example : (recvVector .uint32 [] ⟨[], sixBytes.stale⟩).1 = (0, []) := by decide

end Koheron.Tcp
