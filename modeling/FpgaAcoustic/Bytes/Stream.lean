-- SUMMARY: The receiving end of a byte stream: chunks in any sizes, errors, the end of the stream, and a read of exactly n bytes.
import FpgaAcoustic.Bytes.Memory

/-!
# Streams

What a peer sends arrives in chunks whose boundaries nobody controls. A socket
is the list of what its reads will find. Once the list is empty the peer has
closed and each read finds the end of the stream.
-/

namespace Bytes

/-- What a read finds: at least one byte, or an error. -/
inductive Event
  | data (b : Byte) (bs : List Byte)
  | error
  deriving DecidableEq, Repr

abbrev Socket : Type := List Event

namespace Socket

/-- The bytes that can be read up to the first error or the end. -/
def flat : Socket → List Byte
  | [] => []
  | .data b bs :: sock => b :: bs ++ flat sock
  | .error :: _ => []

/-- No read fails. -/
def Clean (sock : Socket) : Prop := .error ∉ sock

instance (sock : Socket) : Decidable sock.Clean :=
  inferInstanceAs (Decidable (.error ∉ sock))

/-- The chunking in which every byte arrives alone. -/
def bytewise (bs : List Byte) : Socket := bs.map fun b => .data b []

@[simp] theorem flat_nil : flat [] = [] := rfl

@[simp] theorem flat_data (b : Byte) (bs : List Byte) (sock : Socket) :
    flat (.data b bs :: sock) = b :: bs ++ flat sock := rfl

@[simp] theorem flat_error (sock : Socket) : flat (.error :: sock) = [] := rfl

@[simp] theorem flat_bytewise (bs : List Byte) : (bytewise bs).flat = bs := by
  induction bs with
  | nil => rfl
  | cons b bs ih => exact congrArg (b :: ·) ih

theorem clean_bytewise (bs : List Byte) : (bytewise bs).Clean := by
  simp [Clean, bytewise]

theorem Clean.tail {e : Event} {sock : Socket} (h : Clean (e :: sock)) : Clean sock := by
  intro hmem
  exact h (List.mem_cons_of_mem e hmem)

/-- One call of `read`: an error, or at most `n` bytes of what has arrived. -/
def read (n : ℕ) : Socket → Option (List Byte) × Socket
  | [] => (some [], [])
  | .error :: sock => (none, sock)
  | .data b bs :: sock =>
    match (b :: bs).drop n with
    | [] => (some (b :: bs), sock)
    | c :: cs => (some ((b :: bs).take n), .data c cs :: sock)

/-- What is read is taken from the front of the stream. -/
theorem read_flat {sock : Socket} (h : sock.Clean) (n : ℕ) :
    ∃ bytes sock', read n sock = (some bytes, sock') ∧ sock.flat = bytes ++ sock'.flat ∧
      sock'.Clean := by
  cases sock with
  | nil => exact ⟨[], [], rfl, rfl, h⟩
  | cons e sock =>
    cases e with
    | error => exact absurd List.mem_cons_self h
    | data b bs =>
      have htail := Clean.tail h
      rw [read]
      cases hdrop : (b :: bs).drop n with
      | nil => exact ⟨b :: bs, sock, rfl, rfl, htail⟩
      | cons c cs =>
        refine ⟨(b :: bs).take n, .data c cs :: sock, rfl, ?_, by simpa [Clean] using htail⟩
        rw [flat_data, flat_data, ← hdrop, ← List.append_assoc, List.take_append_drop]

/-- How a read of `n` bytes ends. -/
inductive Outcome
  | full
  | closed
  | error
  deriving DecidableEq, Repr

/-- Reads until `n` bytes have arrived, and the bytes that did. -/
def receive : ℕ → Socket → Outcome × List Byte × Socket
  | 0, sock => (.full, [], sock)
  | _ + 1, [] => (.closed, [], [])
  | _ + 1, .error :: sock => (.error, [], sock)
  | n + 1, .data b bs :: sock =>
    if (b :: bs).length ≤ n + 1 then
      let r := receive (n + 1 - (b :: bs).length) sock
      (r.1, b :: bs ++ r.2.1, r.2.2)
    else
      match (b :: bs).drop (n + 1) with
      | [] => (.full, b :: bs, sock)
      | c :: cs => (.full, (b :: bs).take (n + 1), .data c cs :: sock)

@[simp] theorem receive_zero (sock : Socket) : receive 0 sock = (.full, [], sock) := by
  cases sock <;> rfl

/-- A chunk that the read uses up. -/
theorem receive_data_le {n : ℕ} {b : Byte} {bs : List Byte} {sock : Socket}
    (h : (b :: bs).length ≤ n) :
    receive n (.data b bs :: sock) =
      ((receive (n - (b :: bs).length) sock).1,
        b :: bs ++ (receive (n - (b :: bs).length) sock).2.1,
        (receive (n - (b :: bs).length) sock).2.2) := by
  cases n with
  | zero => simp at h
  | succ n =>
    rw [receive, if_pos h]

/-- A chunk of which some is left. -/
theorem receive_data_gt {n : ℕ} {b : Byte} {bs : List Byte} {sock : Socket}
    (h : n < (b :: bs).length) :
    ∃ sock', receive n (.data b bs :: sock) = (.full, (b :: bs).take n, sock') ∧
      sock'.flat = (b :: bs).drop n ++ sock.flat ∧ (sock.Clean → sock'.Clean) := by
  cases n with
  | zero => exact ⟨.data b bs :: sock, rfl, rfl, fun hclean => by simpa [Clean] using hclean⟩
  | succ n =>
    obtain ⟨c, cs, hdrop⟩ : ∃ c cs, (b :: bs).drop (n + 1) = c :: cs := by
      apply List.exists_cons_of_ne_nil
      simpa using h
    refine ⟨.data c cs :: sock, ?_, ?_, fun hclean => by simpa [Clean] using hclean⟩
    · rw [receive, if_neg (by omega), hdrop]
    · rw [hdrop]
      rfl

/-- The bytes are there: they arrive, and the rest stays. -/
theorem receive_full {sock : Socket} {bs rest : List Byte} (h : sock.flat = bs ++ rest) :
    ∃ sock', receive bs.length sock = (.full, bs, sock') ∧ sock'.flat = rest ∧
      (sock.Clean → sock'.Clean) := by
  induction sock generalizing bs with
  | nil =>
    obtain ⟨rfl, rfl⟩ := List.append_eq_nil_iff.mp h.symm
    exact ⟨[], rfl, rfl, id⟩
  | cons e sock ih =>
    cases e with
    | error =>
      obtain ⟨rfl, rfl⟩ := List.append_eq_nil_iff.mp h.symm
      exact ⟨_, receive_zero _, rfl, id⟩
    | data c cs =>
      rcases Nat.lt_or_ge bs.length (c :: cs).length with hlt | hle
      · obtain ⟨sock', hrec, hflat, hclean⟩ := @receive_data_gt _ c cs sock hlt
        have htake : (c :: cs).take bs.length = bs := by
          have happ := congrArg (List.take bs.length) h
          rwa [flat_data, List.take_append_of_le_length hlt.le, List.take_left] at happ
        have hdrop : (c :: cs).drop bs.length ++ flat sock = rest := by
          have happ := congrArg (List.drop bs.length) h
          rwa [flat_data, List.drop_append_of_le_length hlt.le, List.drop_left] at happ
        exact ⟨sock', by rw [hrec, htake], by rw [hflat, hdrop], fun hc => hclean hc.tail⟩
      · obtain ⟨ds, rfl⟩ : c :: cs <+: bs :=
          List.prefix_of_prefix_length_le ⟨_, h⟩ (List.prefix_append bs rest) hle
        have hds : flat sock = ds ++ rest := by
          rw [flat_data, List.append_assoc] at h
          exact List.append_cancel_left h
        obtain ⟨sock', hrec, hflat, hclean⟩ := ih hds
        refine ⟨sock', ?_, hflat, fun hc => hclean hc.tail⟩
        rw [receive_data_le hle, List.length_append, Nat.add_sub_cancel_left, hrec]

/-- A full read has its number of bytes. -/
theorem length_of_receive {sock : Socket} {n : ℕ} (h : (receive n sock).1 = .full) :
    (receive n sock).2.1.length = n := by
  induction sock generalizing n with
  | nil =>
    cases n with
    | zero => rfl
    | succ n => exact Outcome.noConfusion h
  | cons e sock ih =>
    cases e with
    | error =>
      cases n with
      | zero => rfl
      | succ n => exact Outcome.noConfusion h
    | data c cs =>
      rcases Nat.lt_or_ge n (c :: cs).length with hlt | hle
      · obtain ⟨sock', hrec, -⟩ := @receive_data_gt _ c cs sock hlt
        rw [hrec]
        exact List.length_take_of_le hlt.le
      · rw [receive_data_le hle] at h ⊢
        rw [List.length_append, ih h]
        omega

/-- The stream ends too early. -/
theorem receive_short {sock : Socket} {n : ℕ} (hclean : sock.Clean) (h : sock.flat.length < n) :
    receive n sock = (.closed, sock.flat, []) := by
  induction sock generalizing n with
  | nil =>
    cases n with
    | zero => simp at h
    | succ n => rfl
  | cons e sock ih =>
    cases e with
    | error => simp [Clean] at hclean
    | data c cs =>
      rw [flat_data, List.length_append] at h
      rw [receive_data_le (by omega), ih hclean.tail (by omega), flat_data]

/-- Only the end of the stream closes a read. -/
theorem short_of_receive {sock : Socket} {n : ℕ} (h : (receive n sock).1 = .closed) :
    sock.Clean ∧ sock.flat.length < n := by
  induction sock generalizing n with
  | nil =>
    cases n with
    | zero => exact Outcome.noConfusion h
    | succ n => exact ⟨List.not_mem_nil, Nat.succ_pos n⟩
  | cons e sock ih =>
    cases e with
    | error =>
      cases n with
      | zero => exact Outcome.noConfusion h
      | succ n => exact Outcome.noConfusion h
    | data c cs =>
      rcases Nat.lt_or_ge n (c :: cs).length with hlt | hle
      · obtain ⟨sock', hrec, -⟩ := @receive_data_gt _ c cs sock hlt
        rw [hrec] at h
        exact Outcome.noConfusion h
      · rw [receive_data_le hle] at h
        obtain ⟨hclean, hlen⟩ := ih h
        refine ⟨fun hmem => hclean ((List.mem_cons.mp hmem).resolve_left (by simp)), ?_⟩
        rw [flat_data, List.length_append]
        omega

/-- The bytes that have not been read, and the errors that have not been found. -/
def weight : Socket → ℕ
  | [] => 0
  | .data b bs :: sock => (b :: bs).length + weight sock
  | .error :: sock => weight sock + 1

/-- What a read returns is not there any more. -/
theorem weight_receive (n : ℕ) (sock : Socket) :
    (receive n sock).2.1.length + (receive n sock).2.2.weight ≤ sock.weight := by
  induction sock generalizing n with
  | nil => cases n <;> exact le_rfl
  | cons e sock ih =>
    cases n with
    | zero => simp
    | succ n =>
      cases e with
      | error =>
        show 0 + weight sock ≤ weight sock + 1
        omega
      | data c cs =>
        rcases Nat.lt_or_ge (n + 1) (c :: cs).length with hlt | hle
        · have hdrop := List.length_drop (i := n + 1) (l := c :: cs)
          rw [receive, if_neg (not_le.mpr hlt)]
          cases hrest : (c :: cs).drop (n + 1) with
          | nil => exact le_rfl
          | cons d ds =>
            rw [hrest] at hdrop
            simp only [List.length_take_of_le hlt.le, weight]
            omega
        · have hih := ih (n + 1 - (c :: cs).length)
          simp only [receive_data_le hle, List.length_append, weight]
          omega

end Socket

end Bytes
