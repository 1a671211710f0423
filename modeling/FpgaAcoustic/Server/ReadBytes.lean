-- SUMMARY: The two loops of WebSocket::read_n_bytes over an endless sequence of reads, and when they return.
import FpgaAcoustic.Server.WebSocket

/-!
# Reading n bytes

Here reads may fail for ever, so the loops need not return. The test for an
error stands inside the loop that an error leaves, and the outer loop reads
again.
-/

namespace Koheron.WebSocket

open Bytes

/-- What a call of `read` returns: a positive count with the bytes, zero, or a
negative number. -/
inductive ReadResult
  | data (b : Byte) (bs : List Byte)
  | closed
  | error
  deriving DecidableEq, Repr

/-- The variables of the loops, with the calls of `read` so far and the bytes
that they have put at the end of `read_str`. -/
structure Loop where
  reads : ℕ
  remaining : ℤ
  expected : ℤ
  bytesRead : ℤ
  bytes : List Byte

namespace Loop

def start (n : ℕ) : Loop := ⟨0, n, n, -1, []⟩

/-- The body of the inner loop; its test for an error never succeeds there. -/
def received (l : Loop) (chunk : List Byte) : Loop where
  reads := l.reads + 1
  remaining := l.remaining - chunk.length
  expected := if l.expected - chunk.length < 0 then 0 else l.expected - chunk.length
  bytesRead := chunk.length
  bytes := l.bytes ++ chunk

/-- A read that brings nothing. -/
def ended (l : Loop) (bytesRead : ℤ) : Loop := { l with reads := l.reads + 1, bytesRead }

section Fields

variable {l : Loop} {n : ℕ} {chunk : List Byte}

@[simp] theorem received_reads : (l.received chunk).reads = l.reads + 1 := rfl

@[simp] theorem received_bytes : (l.received chunk).bytes = l.bytes ++ chunk := rfl

@[simp] theorem received_bytesRead : (l.received chunk).bytesRead = chunk.length := rfl

@[simp] theorem ended_bytes (bytesRead : ℤ) : (l.ended bytesRead).bytes = l.bytes := rfl

@[simp] theorem ended_expected (bytesRead : ℤ) : (l.ended bytesRead).expected = l.expected := rfl

theorem received_remaining (hremaining : l.remaining = n) (hle : chunk.length ≤ n) :
    (l.received chunk).remaining = (n - chunk.length : ℕ) := by
  show l.remaining - chunk.length = _
  omega

theorem received_expected (hexpected : l.expected = n) (hle : chunk.length ≤ n) :
    (l.received chunk).expected = (n - chunk.length : ℕ) := by
  show (if l.expected - chunk.length < 0 then 0 else l.expected - chunk.length) = _
  split <;> omega

end Fields

end Loop

variable (reads : ℕ → ReadResult)

/-- The inner loop. No read returns more than it was asked for. -/
def fill (l : Loop) : Loop :=
  if 0 < l.remaining then
    match reads l.reads with
    | .data b bs => fill (l.received ((b :: bs).take l.remaining.toNat))
    | .closed => l.ended 0
    | .error => l.ended (-1)
  else l
termination_by l.remaining.toNat
decreasing_by
  simp only [Loop.received, List.length_take, List.length_cons]
  omega

/-- The outer loop, for a buffer that held `len` bytes. -/
def outer (len : ℕ) : ℕ → Loop → Option (ℤ × Loop)
  | 0, _ => none
  | fuel + 1, l =>
    if 0 < l.expected then
      let l := fill reads l
      if l.bytesRead = 0 then some (1, l)
      else if len + l.bytes.length = koheronReadStrLen then some (-1, l)
      else outer len fuel l
    else some (0, l)

/-- The state when `read_n_bytes` returns. -/
def State.appended (s : State) (ret : ℤ) (bytes : List Byte) : State :=
  { s with
    readStr := s.readStr.writeAt s.readStrLen bytes
    readStrLen := s.readStrLen + bytes.length
    connectionClosed := s.connectionClosed || ret == 1 }

/-- `read_n_bytes(n, n)`, with some passes of the outer loop. -/
def readNBytesFrom (n fuel : ℕ) (s : State) : Option (ℤ × State) :=
  (outer reads s.readStrLen fuel (Loop.start n)).map fun (ret, l) => (ret, s.appended ret l.bytes)

/-- The call returns this. -/
def Returns (n : ℕ) (s : State) (r : ℤ × State) : Prop :=
  ∃ fuel, readNBytesFrom reads n fuel s = some r

/-! ## What the reads bring -/

/-- How reading `n` bytes ends, from the read with this number on, and the bytes
that have come by then. -/
def arrival (i : ℕ) : ℕ → Socket.Outcome × List Byte
  | 0 => (.full, [])
  | n + 1 =>
    match reads i with
    | .data b bs =>
      let r := arrival (i + 1) (n - bs.length)
      (r.1, (b :: bs).take (n + 1) ++ r.2)
    | .closed => (.closed, [])
    | .error => (.error, [])
termination_by n => n

/-- All bytes come and are appended, or the first zero closes the connection, or
the call fails at the first negative result, with the bytes before it. -/
def Terminates (n : ℕ) (s : State) : Prop :=
  match arrival reads 0 n with
  | (.full, bytes) => bytes.length = n ∧ Returns reads n s (0, s.appended 0 bytes)
  | (.closed, bytes) => Returns reads n s (1, s.appended 1 bytes)
  | (.error, bytes) => Returns reads n s (-1, s.appended (-1) bytes)

/-! ## The inner loop -/

section Loops

variable {reads} {n len fuel : ℕ} {l : Loop} {s : State}

/-- All bytes have come, or some are missing. -/
theorem length_arrival (i n : ℕ) :
    match (arrival reads i n).1 with
    | .full => (arrival reads i n).2.length = n
    | .closed | .error => (arrival reads i n).2.length < n := by
  induction n using Nat.strong_induction_on generalizing i with
  | _ n ih =>
    cases n with
    | zero =>
      rw [arrival]
      rfl
    | succ n =>
      rw [arrival]
      cases reads i with
      | closed => exact Nat.succ_pos n
      | error => exact Nat.succ_pos n
      | data b bs =>
        have hrest := ih (n - bs.length) (by omega) (i + 1)
        have htake : ((b :: bs).take (n + 1)).length = min (n + 1) (bs.length + 1) :=
          List.length_take
        dsimp only
        rw [List.length_append, htake]
        cases harrival : (arrival reads (i + 1) (n - bs.length)).1 with
        | full | closed | error =>
          rw [harrival] at hrest
          dsimp only at hrest ⊢
          omega

theorem length_arrival_le (i n : ℕ) : (arrival reads i n).2.length ≤ n := by
  have hlength := @length_arrival reads i n
  cases harrival : (arrival reads i n).1 with
  | full | closed | error =>
    rw [harrival] at hlength
    exact hlength.le

/-- What `bytes_read` says after the inner loop. -/
def Verdict (n : ℕ) (l l' : Loop) : Socket.Outcome → Prop
  | .full => n = 0 ∧ l' = l ∨ 0 < l'.bytesRead
  | .closed => l'.bytesRead = 0
  | .error => l'.bytesRead = -1

/-- The counters go down together. -/
theorem fill_spec (hremaining : l.remaining = n) (hexpected : l.expected = n) :
    (fill reads l).bytes = l.bytes ++ (arrival reads l.reads n).2 ∧
      (fill reads l).expected = n - (arrival reads l.reads n).2.length ∧
      Verdict n l (fill reads l) (arrival reads l.reads n).1 := by
  induction n using Nat.strong_induction_on generalizing l with
  | _ n ih =>
    cases n with
    | zero =>
      rw [fill, if_neg (by omega), arrival]
      exact ⟨(List.append_nil _).symm, hexpected, .inl ⟨rfl, rfl⟩⟩
    | succ n =>
      rw [fill, if_pos (by omega), arrival]
      cases hread : reads l.reads with
      | closed => exact ⟨(List.append_nil _).symm, hexpected, rfl⟩
      | error => exact ⟨(List.append_nil _).symm, hexpected, rfl⟩
      | data b bs =>
        have htoNat : l.remaining.toNat = n + 1 := by omega
        have hlen : ((b :: bs).take (n + 1)).length = min (n + 1) (bs.length + 1) :=
          List.length_take
        have hchunk : ((b :: bs).take (n + 1)).length ≤ n + 1 := List.length_take_le _ _
        have hleft : n + 1 - ((b :: bs).take (n + 1)).length = n - bs.length := by omega
        obtain ⟨hbytes, hexp, hverdict⟩ := ih (n - bs.length) (by omega)
          (hleft ▸ Loop.received_remaining hremaining hchunk)
          (hleft ▸ Loop.received_expected hexpected hchunk)
        have hle := @length_arrival_le reads (l.reads + 1) (n - bs.length)
        rw [Loop.received_reads] at hbytes hexp hverdict
        rw [Loop.received_bytes, List.append_assoc] at hbytes
        dsimp only
        rw [htoNat]
        refine ⟨hbytes, ?_, ?_⟩
        · rw [hexp, List.length_append, hlen]
          omega
        · cases harrival : (arrival reads (l.reads + 1) (n - bs.length)).1 with
          | closed => rwa [harrival] at hverdict
          | error => rwa [harrival] at hverdict
          | full =>
            rw [harrival] at hverdict
            refine .inr ?_
            rcases hverdict with ⟨-, hsame⟩ | hpos
            · rw [hsame]
              show (0 : ℤ) < ((b :: bs).take (n + 1)).length
              omega
            · exact hpos

/-! ## The outer loop -/

theorem outer_zero (hexpected : l.expected = 0) : outer reads len (fuel + 1) l = some (0, l) := by
  rw [outer, if_neg (by omega)]

theorem bytesRead_ended_error (l : Loop) : (l.ended (-1)).bytesRead ≠ 0 := by
  show (-1 : ℤ) ≠ 0
  decide

/-- The body of the outer loop, after the inner loop. -/
def afterFill (reads : ℕ → ReadResult) (len fuel : ℕ) (l : Loop) : Option (ℤ × Loop) :=
  if l.bytesRead = 0 then some (1, l)
  else if len + l.bytes.length = koheronReadStrLen then some (-1, l)
  else outer reads len fuel l

theorem outer_eq_afterFill (hexpected : 0 < l.expected) :
    outer reads len (fuel + 1) l = afterFill reads len fuel (fill reads l) := by
  rw [outer, if_pos hexpected]
  rfl

theorem afterFill_done (hexpected : l.expected = 0) (hread : l.bytesRead ≠ 0) :
    afterFill reads len 1 l =
      some (if len + l.bytes.length = koheronReadStrLen then -1 else 0, l) := by
  rw [afterFill, if_neg hread, outer_zero hexpected]
  split <;> rfl

/-- After an error the outer loop goes on, unless the buffer has the length of another. -/
theorem afterFill_error (fuel : ℕ) (l : Loop) :
    afterFill reads len fuel (l.ended (-1)) =
      if len + l.bytes.length = koheronReadStrLen then some (-1, l.ended (-1))
      else outer reads len fuel (l.ended (-1)) := by
  rw [afterFill, if_neg (bytesRead_ended_error l), Loop.ended_bytes]

/-- A pass of the outer loop from the start. -/
theorem outer_start (hn : 0 < n) :
    outer reads len (fuel + 1) (Loop.start n) =
      match (arrival reads 0 n).1 with
      | .full =>
        if len + n = koheronReadStrLen then some (-1, fill reads (Loop.start n))
        else outer reads len fuel (fill reads (Loop.start n))
      | .closed => some (1, fill reads (Loop.start n))
      | .error =>
        if len + (arrival reads 0 n).2.length = koheronReadStrLen then
          some (-1, fill reads (Loop.start n))
        else outer reads len fuel (fill reads (Loop.start n)) := by
  obtain ⟨hbytes, -, hverdict⟩ := @fill_spec reads n (Loop.start n) rfl rfl
  have hlength := @length_arrival reads 0 n
  have hstart : (Loop.start n).reads = 0 := rfl
  have hnil : (Loop.start n).bytes = [] := rfl
  have hexpected : 0 < (Loop.start n).expected := Int.natCast_pos.mpr hn
  rw [hstart] at hverdict hbytes
  rw [hnil, List.nil_append] at hbytes
  rw [outer, if_pos hexpected]
  simp only [hbytes]
  cases harrival : (arrival reads 0 n).1 with
  | full =>
    rw [harrival] at hlength hverdict
    have hpos : (fill reads (Loop.start n)).bytesRead ≠ 0 := by
      rcases hverdict with ⟨hzero, -⟩ | hpos
      · omega
      · omega
    rw [if_neg hpos, hlength]
  | closed =>
    rw [harrival] at hverdict
    exact if_pos hverdict
  | error =>
    rw [harrival] at hverdict
    have hneg : (fill reads (Loop.start n)).bytesRead = -1 := hverdict
    rw [if_neg (by omega)]

/-- The call fails only with a buffer that has the length of another one. -/
theorem length_of_outer_neg {l' : Loop} (h : outer reads len fuel l = some (-1, l')) :
    len + l'.bytes.length = koheronReadStrLen := by
  induction fuel generalizing l with
  | zero => exact absurd h (by simp [outer])
  | succ fuel ih =>
    unfold outer at h
    dsimp only at h
    split_ifs at h with hexpected hclosed hfull
    · have hret : (1 : ℤ) = -1 := congrArg Prod.fst (Option.some.inj h)
      omega
    · rw [← (Prod.mk.inj (Option.some.inj h)).2]
      exact hfull
    · exact ih h
    · have hret : (0 : ℤ) = -1 := congrArg Prod.fst (Option.some.inj h)
      omega

/-! ## Returning -/

theorem returns_of_outer {ret : ℤ} {l' : Loop}
    (h : outer reads s.readStrLen fuel (Loop.start n) = some (ret, l')) :
    Returns reads n s (ret, s.appended ret l'.bytes) :=
  ⟨fuel, by rw [readNBytesFrom, h]; rfl⟩

theorem bytes_fill (reads : ℕ → ReadResult) (n : ℕ) :
    (fill reads (Loop.start n)).bytes = (arrival reads 0 n).2 := by
  obtain ⟨hbytes, -, -⟩ := @fill_spec reads n (Loop.start n) rfl rfl
  exact hbytes

/-- Nothing is left to be expected when all bytes have come. -/
theorem expected_fill (h : (arrival reads 0 n).1 = .full) :
    (fill reads (Loop.start n)).expected = 0 := by
  obtain ⟨-, hexpected, -⟩ := @fill_spec reads n (Loop.start n) rfl rfl
  have hlength := @length_arrival reads 0 n
  rw [h] at hlength
  have hzero : ((n : ℤ) - (arrival reads 0 n).2.length) = 0 := by
    rw [hlength]
    exact Int.sub_self _
  exact hexpected.trans hzero

end Loops

variable (n : ℕ) (s : State)

/-- What comes does not meet the test for a full buffer, which is made for
another one, but an error does. -/
def Untroubled : Prop :=
  match arrival reads 0 n with
  | (.full, _) => n = 0 ∨ s.readStrLen + n ≠ koheronReadStrLen
  | (.closed, _) => True
  | (.error, bytes) => s.readStrLen + bytes.length = koheronReadStrLen

theorem returns_full (h : (arrival reads 0 n).1 = .full)
    (hfull : n = 0 ∨ s.readStrLen + n ≠ koheronReadStrLen) :
    Returns reads n s (0, s.appended 0 (arrival reads 0 n).2) := by
  rcases Nat.eq_zero_or_pos n with rfl | hn
  · have hnil : (arrival reads 0 0).2 = [] := by rw [arrival]
    rw [hnil]
    exact @returns_of_outer reads 0 1 s _ _ (outer_zero rfl)
  · have houter : outer reads s.readStrLen 2 (Loop.start n) =
        some (0, fill reads (Loop.start n)) := by
      rw [outer_start hn, h]
      dsimp only
      rw [if_neg (hfull.resolve_left (by omega)), outer_zero (expected_fill h)]
    rw [← bytes_fill]
    exact returns_of_outer houter

theorem not_returns_of_full (h : (arrival reads 0 n).1 = .full) (hn : 0 < n)
    (hfull : s.readStrLen + n = koheronReadStrLen) (s' : State) :
    ¬ Returns reads n s (0, s') := by
  rintro ⟨fuel, hfuel⟩
  cases fuel with
  | zero => exact absurd hfuel (by simp [readNBytesFrom, outer])
  | succ fuel =>
    rw [readNBytesFrom, outer_start hn, h] at hfuel
    dsimp only at hfuel
    rw [if_pos hfull] at hfuel
    have hret : (-1 : ℤ) = 0 := congrArg Prod.fst (Option.some.inj hfuel)
    omega

theorem pos_of_arrival_ne (h : (arrival reads 0 n).1 ≠ .full) : 0 < n := by
  rcases Nat.eq_zero_or_pos n with rfl | hn
  · rw [arrival] at h
    exact absurd rfl h
  · exact hn

theorem returns_closed (h : (arrival reads 0 n).1 = .closed) :
    Returns reads n s (1, s.appended 1 (arrival reads 0 n).2) := by
  have hn := pos_of_arrival_ne reads n (by rw [h]; decide)
  rw [← bytes_fill]
  refine @returns_of_outer reads n 1 s _ _ ?_
  rw [outer_start hn, h]

theorem returns_error_iff (h : (arrival reads 0 n).1 = .error) :
    Returns reads n s (-1, s.appended (-1) (arrival reads 0 n).2) ↔
      s.readStrLen + (arrival reads 0 n).2.length = koheronReadStrLen := by
  have hn := pos_of_arrival_ne reads n (by rw [h]; decide)
  constructor
  · rintro ⟨fuel, hfuel⟩
    obtain ⟨⟨ret, l'⟩, houter, hresult⟩ := Option.map_eq_some_iff.mp hfuel
    obtain ⟨rfl, hstate⟩ := Prod.mk.inj hresult
    have hlen : s.readStrLen + l'.bytes.length =
        s.readStrLen + (arrival reads 0 n).2.length := congrArg State.readStrLen hstate
    rw [← hlen]
    exact length_of_outer_neg houter
  · intro hfull
    rw [← bytes_fill]
    refine @returns_of_outer reads n 1 s _ _ ?_
    rw [outer_start hn, h]
    exact if_pos hfull

/-- Reading ends as it should just when the reads leave the wrong test alone. -/
theorem terminates_iff : Terminates reads n s ↔ Untroubled reads n s := by
  unfold Terminates Untroubled
  have hlength := @length_arrival reads 0 n
  rcases harrival : arrival reads 0 n with ⟨outcome, bytes⟩
  have houtcome : (arrival reads 0 n).1 = outcome := congrArg Prod.fst harrival
  have hbytes : (arrival reads 0 n).2 = bytes := congrArg Prod.snd harrival
  rw [houtcome, hbytes] at hlength
  rw [← hbytes]
  cases outcome with
  | full =>
    dsimp only at hlength ⊢
    constructor
    · rintro ⟨-, hreturns⟩
      by_contra hfull
      push Not at hfull
      exact not_returns_of_full reads n s houtcome (by omega) hfull.2 _ hreturns
    · intro hfull
      exact ⟨by rw [hbytes]; exact hlength, returns_full reads n s houtcome hfull⟩
  | closed => exact iff_of_true (returns_closed reads n s houtcome) trivial
  | error => exact returns_error_iff reads n s houtcome

/-! ## Errors for ever -/

variable {reads} {n} {s} {len : ℕ}

theorem outer_errors (herror : ∀ i, reads i = .error) (fuel : ℕ) {l : Loop}
    (hremaining : 0 < l.remaining) (hexpected : 0 < l.expected)
    (hfull : len + l.bytes.length ≠ koheronReadStrLen) : outer reads len fuel l = none := by
  induction fuel generalizing l with
  | zero => rfl
  | succ fuel ih =>
    have hfill : fill reads l = l.ended (-1) := by
      rw [fill, if_pos hremaining, herror]
    rw [outer_eq_afterFill hexpected, hfill, afterFill_error, if_neg hfull]
    exact ih hremaining hexpected hfull

/-- The call never returns. -/
theorem not_returns_of_errors (herror : ∀ i, reads i = .error) (hn : 0 < n)
    (hfull : s.readStrLen ≠ koheronReadStrLen) (r : ℤ × State) : ¬ Returns reads n s r := by
  rintro ⟨fuel, hfuel⟩
  have hpos : (0 : ℤ) < n := Int.natCast_pos.mpr hn
  have houter : outer reads s.readStrLen fuel (Loop.start n) = none :=
    outer_errors herror fuel hpos hpos hfull
  rw [readNBytesFrom, houter] at hfuel
  exact absurd hfuel.symm (Option.some_ne_none r)

/-- A session whose buffer is empty. -/
def opened : State where
  sock := []
  readStr := fun _ => 0
  readStrLen := 0
  header := ⟨0, 0, 0, false, false, 0⟩
  connectionClosed := false
  stale := fun _ => (fun _ => 0, fun _ => 0)

/-- The first six bytes of a frame, when the reads fail for ever. -/
theorem errors_not_terminates :
    (∀ r, ¬ Returns (fun _ => .error) 6 opened r) ∧ ¬ Terminates (fun _ => .error) 6 opened := by
  have hreturns : ∀ r, ¬ Returns (fun _ => .error) 6 opened r := fun r =>
    not_returns_of_errors (fun _ => rfl) (by decide) (by decide) r
  have harrival : arrival (fun _ => .error) 0 6 = (.error, []) := by rw [arrival]
  refine ⟨hreturns, fun h => ?_⟩
  rw [Terminates, harrival] at h
  exact hreturns _ h

/-! ## Reads from a socket -/

/-- What the reads from a socket return; after its end, zeros. -/
def socketReads (sock : Socket) (i : ℕ) : ReadResult :=
  match sock[i]? with
  | none => .closed
  | some .error => .error
  | some (.data b bs) => .data b bs

theorem fill_zero {l : Loop} (h : l.remaining = 0) : fill reads l = l := by
  rw [fill, if_neg (by omega)]

/-- The last read brings as much as is asked for. -/
theorem afterFill_last {l : Loop} {chunk : List Byte} (hremaining : l.remaining = n)
    (hexpected : l.expected = n) (hlen : chunk.length = n) (hn : 0 < n) :
    afterFill reads len 1 (fill reads (l.received chunk)) =
      some (if len + l.bytes.length + n = koheronReadStrLen then -1 else 0, l.received chunk) := by
  have hzero : ((n - chunk.length : ℕ) : ℤ) = 0 := by
    rw [hlen, Nat.sub_self]
    rfl
  have hread : (l.received chunk).bytesRead ≠ 0 := by
    rw [Loop.received_bytesRead, hlen]
    exact Int.natCast_ne_zero.mpr hn.ne'
  rw [fill_zero ((Loop.received_remaining hremaining hlen.le).trans hzero),
    afterFill_done ((Loop.received_expected hexpected hlen.le).trans hzero) hread,
    Loop.received_bytes, List.length_append, hlen, Nat.add_assoc]

/-- The loops for a socket, from any point in the inner loop. -/
theorem afterFill_socket {sock : Socket} {l : Loop}
    (hreads : ∀ k, reads (l.reads + k) = socketReads sock k) (hremaining : l.remaining = n)
    (hexpected : l.expected = n) (hread : n = 0 → l.bytesRead ≠ 0) :
    ∃ fuel l', afterFill reads len fuel (fill reads l) =
        some ((readLoop (len + l.bytes.length) n sock).1, l') ∧
      l'.bytes = l.bytes ++ (readLoop (len + l.bytes.length) n sock).2.1 := by
  induction sock generalizing n l with
  | nil =>
    cases n with
    | zero =>
      rw [fill_zero hremaining]
      exact ⟨1, l, afterFill_done hexpected (hread rfl), (List.append_nil _).symm⟩
    | succ n =>
      have hfirst : reads l.reads = .closed := hreads 0
      rw [fill, if_pos (by omega), hfirst]
      exact ⟨0, l.ended 0, rfl, (List.append_nil _).symm⟩
  | cons e sock ih =>
    have hnext : ∀ k, reads (l.reads + 1 + k) = socketReads sock k := fun k => by
      rw [Nat.add_assoc, Nat.add_comm 1 k, hreads]
      rfl
    cases n with
    | zero =>
      rw [fill_zero hremaining]
      refine ⟨1, l, ?_, ?_⟩
      · rw [afterFill_done hexpected (hread rfl)]
        cases e <;> rfl
      · cases e <;> exact (List.append_nil _).symm
    | succ n =>
      rw [fill, if_pos (by omega)]
      cases e with
      | error =>
        have hfirst : reads l.reads = .error := hreads 0
        rw [hfirst]
        dsimp only
        by_cases hfull : len + l.bytes.length = koheronReadStrLen
        · rw [readLoop, if_pos hfull]
          refine ⟨0, l.ended (-1), ?_, (List.append_nil _).symm⟩
          rw [afterFill_error, if_pos hfull]
        · rw [readLoop, if_neg hfull]
          obtain ⟨fuel, l', hafter, hbytes⟩ := ih (l := l.ended (-1)) hnext hremaining hexpected
            (fun _ => bytesRead_ended_error l)
          have hpos : 0 < (l.ended (-1)).expected := by
            rw [Loop.ended_expected]
            omega
          refine ⟨fuel + 1, l', ?_, hbytes⟩
          rw [afterFill_error, if_neg hfull, outer_eq_afterFill hpos]
          exact hafter
      | data b bs =>
        have hfirst : reads l.reads = .data b bs := hreads 0
        have htoNat : l.remaining.toNat = n + 1 := by omega
        rw [hfirst]
        dsimp only
        rw [htoNat]
        rcases le_or_gt (b :: bs).length (n + 1) with hle | hgt
        · have hread : (l.received (b :: bs)).bytesRead ≠ 0 := by
            rw [Loop.received_bytesRead]
            exact Int.natCast_ne_zero.mpr (Nat.succ_ne_zero _)
          obtain ⟨fuel, l', hafter, hbytes⟩ := ih hnext (Loop.received_remaining hremaining hle)
            (Loop.received_expected hexpected hle) (fun _ => hread)
          rw [Loop.received_bytes, List.length_append, ← Nat.add_assoc] at hafter hbytes
          rw [List.take_of_length_le hle, readLoop, if_pos hle]
          exact ⟨fuel, l', hafter, hbytes.trans (List.append_assoc ..)⟩
        · have hlen : ((b :: bs).take (n + 1)).length = n + 1 := List.length_take_of_le hgt.le
          obtain ⟨c, cs, hdrop⟩ : ∃ c cs, (b :: bs).drop (n + 1) = c :: cs := by
            apply List.exists_cons_of_ne_nil
            simpa using hgt
          rw [readLoop, if_neg hgt.not_ge, hdrop]
          exact ⟨1, _, afterFill_last hremaining hexpected hlen (Nat.succ_pos n), rfl⟩

theorem appended_nil (s : State) : s.appended 0 [] = s := by
  have hmem : s.readStr.writeAt s.readStrLen [] = s.readStr := by
    funext i
    exact ite_self _
  have hclosed : (s.connectionClosed || (0 : ℤ) == 1) = s.connectionClosed := Bool.or_false _
  rw [State.appended, hmem, hclosed]
  rfl

/-- What the session reads from a socket is what the loops return. -/
theorem readNBytes_returns (n : ℕ) (s : State) :
    Returns (socketReads s.sock) n s
      ((readNBytes n s).1, { (readNBytes n s).2 with sock := s.sock }) := by
  rcases Nat.eq_zero_or_pos n with rfl | hn
  · have hread : readNBytes ((0 : ℕ) : ℤ) s = (0, s) := if_pos (le_refl (0 : ℤ))
    have hreturns := @returns_of_outer (socketReads s.sock) 0 1 s _ _ (outer_zero rfl)
    have hsame : s.appended 0 (Loop.start 0).bytes = s := appended_nil s
    rw [hsame] at hreturns
    rw [hread]
    exact hreturns
  · have hpos : (0 : ℤ) < n := Int.natCast_pos.mpr hn
    obtain ⟨fuel, l', hafter, hbytes⟩ := @afterFill_socket (socketReads s.sock) n s.readStrLen
      s.sock (Loop.start n) (fun k => congrArg _ (Nat.zero_add k)) rfl rfl
      (fun hzero => absurd hzero (by omega))
    have hnil : (Loop.start n).bytes = [] := rfl
    rw [hnil, List.nil_append] at hbytes
    rw [← outer_eq_afterFill hpos] at hafter
    have hreturns := returns_of_outer hafter
    rw [hbytes] at hreturns
    rw [readNBytes, if_neg (by omega), Int.toNat_natCast]
    exact hreturns

end Koheron.WebSocket
