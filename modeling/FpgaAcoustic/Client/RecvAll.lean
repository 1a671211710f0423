-- SUMMARY: The loop of recv_all over an endless sequence of sock.recv results, and when it returns.
import Mathlib.Data.List.Infix
import FpgaAcoustic.Client.PyReceive
import FpgaAcoustic.Transition.WhileLoop

/-!
# Receiving n bytes

At the end of the stream every `sock.recv` returns an empty string of bytes, so
the loop only leaves there by its test for one. The test compares with a string
of characters. The two are of one type in Python 2 and of two types in Python 3,
where they are never equal.
-/

namespace Koheron.RecvAll

open Bytes PyReceive

/-- The versions of Python that the package is written for. -/
inductive Version
  | python2
  | python3
  deriving DecidableEq, Repr

/-- `chunk == ''`. -/
def isEmptyStr : Version → List Byte → Bool
  | .python2, chunk => chunk.isEmpty
  | .python3, _ => false

/-- The chunks joined before the `k`-th call. -/
def joined (chunk : ℕ → List Byte) : ℕ → List Byte
  | 0 => []
  | k + 1 => joined chunk k ++ chunk k

/-- What the calls of `sock.recv` return to a client that receives `n` bytes: no
more than it asks for, and nothing after the end of the stream. -/
structure Peer (n : ℕ) where
  chunk : ℕ → List Byte
  ended : ∀ k, chunk k = [] → chunk (k + 1) = []
  fits : ∀ k, (joined chunk k).length < n →
    (chunk k).length ≤ min (n - (joined chunk k).length) buffSize

/-- The variables of the loop, with the calls so far. -/
structure State where
  nRcv : ℕ
  data : List (List Byte)
  calls : ℕ

def start : State := ⟨0, [], 0⟩

variable {n : ℕ}

/-- A pass of the loop; the result joins the chunks. -/
def pass (version : Version) (p : Peer n) (s : State) : State ⊕ List Byte :=
  if s.nRcv < n then
    let chunk := p.chunk s.calls
    if isEmptyStr version chunk then .inr s.data.flatten
    else .inl ⟨s.nRcv + chunk.length, s.data ++ [chunk], s.calls + 1⟩
  else .inr s.data.flatten

/-- `recv_all(n)` returns these bytes. -/
def Returns (version : Version) (p : Peer n) (bs : List Byte) : Prop :=
  WhileLoop.Returns (pass version p) start bs

namespace Peer

def bytes (p : Peer n) : ℕ → List Byte := joined p.chunk

/-- The `n` bytes arrive. -/
def Arrives (p : Peer n) : Prop := ∃ k, n ≤ (p.bytes k).length

variable {p : Peer n} {j k : ℕ}

theorem bytes_succ (p : Peer n) (k : ℕ) : p.bytes (k + 1) = p.bytes k ++ p.chunk k := rfl

theorem bytes_prefix (p : Peer n) (h : j ≤ k) : p.bytes j <+: p.bytes k := by
  induction k, h using Nat.le_induction with
  | base => exact List.prefix_rfl
  | succ k _ ih => exact ih.trans (List.prefix_append _ _)

/-- Nothing comes after the end of the stream. -/
theorem bytes_of_ended (hend : p.chunk j = []) (h : j ≤ k) :
    p.bytes k = p.bytes j ∧ p.chunk k = [] := by
  induction k, h using Nat.le_induction with
  | base => exact ⟨rfl, hend⟩
  | succ k _ ih =>
    obtain ⟨hbytes, hchunk⟩ := ih
    rw [bytes_succ, hchunk, List.append_nil]
    exact ⟨hbytes, p.ended k hchunk⟩

/-- A stream that ends early does not bring the `n` bytes. -/
theorem not_arrives_of_ended (hend : p.chunk j = []) (h : (p.bytes j).length < n) :
    ¬ p.Arrives := by
  rintro ⟨k, hk⟩
  rcases Nat.le_total j k with hjk | hkj
  · rw [(bytes_of_ended hend hjk).1] at hk
    omega
  · have := (p.bytes_prefix hkj).length_le
    omega

/-- The first `n` bytes do not depend on where they are cut. -/
theorem bytes_eq_take (hj : (p.bytes j).length = n) (hk : n ≤ (p.bytes k).length) :
    p.bytes j = (p.bytes k).take n := by
  have hprefix : p.bytes j <+: p.bytes k := by
    rcases Nat.le_total j k with hjk | hkj
    · exact p.bytes_prefix hjk
    · exact (List.IsPrefix.eq_of_length_le (p.bytes_prefix hkj) (by omega)) ▸ List.prefix_rfl
  have htake := List.prefix_iff_eq_take.mp hprefix
  rwa [hj] at htake

end Peer

/-- Receiving ends with the first `n` bytes if they arrive, and with fewer bytes
if they do not. -/
structure Terminates (version : Version) (p : Peer n) : Prop where
  whole : ∀ k, n ≤ (p.bytes k).length → Returns version p ((p.bytes k).take n)
  short : ¬ p.Arrives → ∃ bs, Returns version p bs ∧ bs.length < n

/-! ## The loop -/

section Loop

variable {version : Version} {p : Peer n} {s s' : State} {bs : List Byte}

/-- The bytes received are those of the calls made, and no more than `n`. -/
structure Received (p : Peer n) (s : State) : Prop where
  nRcv : s.nRcv = (p.bytes s.calls).length
  data : s.data.flatten = p.bytes s.calls
  le : s.nRcv ≤ n

theorem start_received (p : Peer n) : Received p start := ⟨rfl, rfl, Nat.zero_le n⟩

/-- A pass that goes on has received a chunk that does not pass the test. -/
theorem pass_eq_inl (h : pass version p s = .inl s') :
    s.nRcv < n ∧ isEmptyStr version (p.chunk s.calls) = false ∧
      s' = ⟨s.nRcv + (p.chunk s.calls).length, s.data ++ [p.chunk s.calls], s.calls + 1⟩ := by
  unfold pass at h
  dsimp only at h
  split_ifs at h with hlt hempty
  exact ⟨hlt, Bool.not_eq_true _ ▸ hempty, (Sum.inl.inj h).symm⟩

/-- A pass leaves with the chunks so far, when they are enough or at the end. -/
theorem pass_eq_inr (h : pass version p s = .inr bs) :
    bs = s.data.flatten ∧ (n ≤ s.nRcv ∨ s.nRcv < n ∧ p.chunk s.calls = []) := by
  unfold pass at h
  dsimp only at h
  split_ifs at h with hlt hempty
  · refine ⟨(Sum.inr.inj h).symm, .inr ⟨hlt, ?_⟩⟩
    cases version with
    | python2 => exact List.isEmpty_iff.mp hempty
    | python3 => exact Bool.noConfusion hempty
  · exact ⟨(Sum.inr.inj h).symm, .inl (Nat.le_of_not_lt hlt)⟩

theorem Received.pass (h : Received p s) (hpass : pass version p s = .inl s') :
    Received p s' := by
  obtain ⟨hlt, -, rfl⟩ := pass_eq_inl hpass
  have hfits := p.fits s.calls (by rw [← Peer.bytes, ← h.nRcv]; exact hlt)
  rw [← Peer.bytes, ← h.nRcv] at hfits
  refine ⟨?_, ?_, ?_⟩
  · rw [Peer.bytes_succ, List.length_append, h.nRcv]
  · rw [Peer.bytes_succ, List.flatten_append, h.data, List.flatten_singleton]
  · show s.nRcv + (p.chunk s.calls).length ≤ n
    omega

/-- What the loop leaves with: the first `n` bytes, or all bytes of a shorter
stream. -/
def Left (p : Peer n) (bs : List Byte) : Prop :=
  ∃ k, bs = p.bytes k ∧ (bs.length = n ∨ bs.length < n ∧ p.chunk k = [])

theorem Received.left (h : Received p s) (hpass : RecvAll.pass version p s = .inr bs) :
    Left p bs := by
  obtain ⟨rfl, hcases⟩ := pass_eq_inr hpass
  have hle := h.le
  refine ⟨s.calls, h.data, ?_⟩
  rw [h.data, ← h.nRcv]
  rcases hcases with hge | hshort
  · exact .inl (Nat.le_antisymm hle hge)
  · exact .inr hshort

/-- The loop returns where the test works or is not needed. -/
theorem returns_left (h : version = .python2 ∨ p.Arrives) :
    ∃ bs, Returns version p bs ∧ Left p bs := by
  refine WhileLoop.returns_of_variant (I := Received p) (fun s => n - s.nRcv) ?_
    (fun s bs hs hpass => hs.left hpass) (start_received p)
  intro s s' hs hpass
  refine ⟨hs.pass hpass, ?_⟩
  obtain ⟨hlt, hnonempty, rfl⟩ := pass_eq_inl hpass
  have hchunk : p.chunk s.calls ≠ [] := by
    intro hend
    rcases h with rfl | harrives
    · rw [hend] at hnonempty
      exact Bool.noConfusion hnonempty
    · exact Peer.not_arrives_of_ended hend (hs.nRcv ▸ hlt) harrives
  have hpos := List.length_pos_iff.mpr hchunk
  show n - (s.nRcv + (p.chunk s.calls).length) < n - s.nRcv
  omega

/-- In Python 3 the loop goes on for ever when the stream ends early. -/
theorem not_returns_of_not_arrives (h : ¬ p.Arrives) : ¬ Returns .python3 p bs := by
  refine WhileLoop.not_returns_of_invariant (I := Received p) ?_ (start_received p)
  intro s hs
  have hlt : s.nRcv < n := by
    rw [hs.nRcv]
    exact Nat.lt_of_not_le fun hle => h ⟨s.calls, hle⟩
  have hpass : pass .python3 p s =
      .inl ⟨s.nRcv + (p.chunk s.calls).length, s.data ++ [p.chunk s.calls], s.calls + 1⟩ :=
    if_pos hlt
  exact ⟨_, hpass, hs.pass hpass⟩

theorem terminates_of_returns (h : version = .python2 ∨ p.Arrives) : Terminates version p := by
  obtain ⟨bs, hreturns, k, rfl, hcases⟩ := returns_left h
  refine ⟨?_, ?_⟩
  · intro j hj
    rcases hcases with hwhole | ⟨hshort, hend⟩
    · rw [← Peer.bytes_eq_take hwhole hj]
      exact hreturns
    · exact absurd ⟨j, hj⟩ (Peer.not_arrives_of_ended hend hshort)
  · intro hnot
    rcases hcases with hwhole | ⟨hshort, -⟩
    · exact absurd ⟨k, hwhole.ge⟩ hnot
    · exact ⟨_, hreturns, hshort⟩

theorem recvAll_terminates_iff (version : Version) (p : Peer n) :
    Terminates version p ↔ version = .python2 ∨ p.Arrives := by
  refine ⟨?_, terminates_of_returns⟩
  intro h
  by_cases harrives : p.Arrives
  · exact .inr harrives
  · obtain ⟨bs, hreturns, -⟩ := h.short harrives
    cases version with
    | python2 => exact .inl rfl
    | python3 => exact absurd hreturns (not_returns_of_not_arrives harrives)

/-- Nothing else is returned. -/
theorem Terminates.eq_take (h : Terminates version p) (hreturns : Returns version p bs) {k : ℕ}
    (hk : n ≤ (p.bytes k).length) : bs = (p.bytes k).take n :=
  WhileLoop.Returns.unique hreturns (h.whole k hk)

end Loop

/-- A stream that has ended. -/
def hangUp : Peer 12 := ⟨fun _ => [], fun _ _ => rfl, fun _ _ => Nat.zero_le _⟩

theorem bytes_hangUp (k : ℕ) : hangUp.bytes k = [] := by
  induction k with
  | zero => rfl
  | succ k ih => rw [Peer.bytes_succ, ih]; rfl

/-- The header of a response, from a server that has closed the connection. -/
theorem hangUp_not_terminates :
    (∀ bs, ¬ Returns .python3 hangUp bs) ∧ ¬ Terminates .python3 hangUp := by
  have hnot : ¬ hangUp.Arrives := by
    rintro ⟨k, hk⟩
    rw [bytes_hangUp] at hk
    exact absurd hk (by decide)
  refine ⟨fun bs => not_returns_of_not_arrives hnot, fun h => ?_⟩
  obtain ⟨bs, hreturns, -⟩ := h.short hnot
  exact not_returns_of_not_arrives hnot hreturns

/-! ## Calls on a socket -/

/-- A call of `sock.recv` in the loop, with the bytes that are left. -/
def recvNext (left : ℕ) (sock : Socket) : List Byte × ℕ × Socket :=
  let r := sockRecv (min left buffSize) sock
  (r.1.getD [], left - (r.1.getD []).length, r.2)

/-- The bytes that are left and the socket before the `k`-th call. -/
def before (n : ℕ) (sock : Socket) : ℕ → ℕ × Socket
  | 0 => (n, sock)
  | k + 1 => (recvNext (before n sock k).1 (before n sock k).2).2

def socketChunk (n : ℕ) (sock : Socket) (k : ℕ) : List Byte :=
  (recvNext (before n sock k).1 (before n sock k).2).1

section Socket

variable {sock : Socket} {k : ℕ}

theorem length_sockRecv_le (m : ℕ) (sock : Socket) : ((sockRecv m sock).1.getD []).length ≤ m := by
  rcases sock with _ | ⟨_ | _, sock⟩
  · exact Nat.zero_le m
  · exact List.length_take_le _ _
  · exact Nat.zero_le m

theorem clean_sockRecv (m : ℕ) (hclean : sock.Clean) : (sockRecv m sock).2.Clean := by
  rcases sock with _ | ⟨⟨b, bs⟩ | _, sock⟩
  · exact hclean
  · rw [sockRecv]
    split
    · exact hclean.tail
    · exact fun hmem => hclean.tail ((List.mem_cons.mp hmem).resolve_left (by simp))
  · exact absurd (List.mem_cons_self ..) hclean

/-- A socket with no error returns nothing just at its end, or when nothing is asked for. -/
theorem sockRecv_nil {m : ℕ} (hclean : sock.Clean) (h : (sockRecv m sock).1.getD [] = []) :
    sock = [] ∨ m = 0 := by
  rcases sock with _ | ⟨⟨b, bs⟩ | _, sock⟩
  · exact .inl rfl
  · refine .inr ?_
    have hlen := congrArg List.length h
    rw [sockRecv, Option.getD_some, List.length_take, List.length_cons, List.length_nil] at hlen
    omega
  · exact absurd (List.mem_cons_self ..) hclean

theorem before_succ (n : ℕ) (sock : Socket) (k : ℕ) :
    before n sock (k + 1) = ((before n sock k).1 - (socketChunk n sock k).length,
      (sockRecv (min (before n sock k).1 buffSize) (before n sock k).2).2) := rfl

theorem clean_before (hclean : sock.Clean) (n k : ℕ) : (before n sock k).2.Clean := by
  induction k with
  | zero => exact hclean
  | succ k ih => exact clean_sockRecv _ ih

theorem length_socketChunk_le (n : ℕ) (sock : Socket) (k : ℕ) :
    (socketChunk n sock k).length ≤ min (before n sock k).1 buffSize :=
  length_sockRecv_le _ _

/-- What is left is what has not been received. -/
theorem length_joined_socketChunk (n : ℕ) (sock : Socket) (k : ℕ) :
    (joined (socketChunk n sock) k).length + (before n sock k).1 = n := by
  induction k with
  | zero => exact Nat.zero_add n
  | succ k ih =>
    have hle := length_socketChunk_le n sock k
    rw [joined, List.length_append, before_succ]
    dsimp only
    omega

theorem socketChunk_ended (hclean : sock.Clean) (h : socketChunk n sock k = []) :
    socketChunk n sock (k + 1) = [] := by
  have hcases := sockRecv_nil (clean_before hclean n k) h
  have hleft : (before n sock (k + 1)).1 = (before n sock k).1 := by
    rw [before_succ, h]
    rfl
  rw [socketChunk, recvNext, hleft]
  dsimp only
  rcases hcases with hsock | hzero
  · rw [before_succ, hsock]
    rfl
  · rw [hzero]
    exact List.length_eq_zero_iff.mp (Nat.le_zero.mp (length_sockRecv_le 0 _))

/-- The calls that a client makes on a socket without errors. -/
def socketPeer (n : ℕ) (sock : Socket) (hclean : sock.Clean) : Peer n where
  chunk := socketChunk n sock
  ended _ h := socketChunk_ended hclean h
  fits k _ := by
    have hle := length_socketChunk_le n sock k
    have hleft := length_joined_socketChunk n sock k
    omega

theorem returns_of_none_left {hclean : sock.Clean} {s : State}
    (hreceived : Received (socketPeer n sock hclean) s) (hleft : (before n sock s.calls).1 = 0) :
    WhileLoop.Returns (pass .python3 (socketPeer n sock hclean)) s s.data.flatten := by
  have hall := length_joined_socketChunk n sock s.calls
  have hnRcv : s.nRcv = (joined (socketChunk n sock) s.calls).length := hreceived.nRcv
  refine WhileLoop.returns_of_inr ?_
  rw [pass, if_neg (by omega)]

/-- With nothing left the receiver of responses returns without a call. -/
theorem returns_of_recvLoop_zero {hclean : sock.Clean} {passes : ℕ} {bs : List Byte}
    {sock' : Socket} {s : State} (hreceived : Received (socketPeer n sock hclean) s)
    (hleft : (before n sock s.calls).1 = 0)
    (h : recvLoop passes (before n sock s.calls).1 (before n sock s.calls).2 = (some bs, sock')) :
    WhileLoop.Returns (pass .python3 (socketPeer n sock hclean)) s (s.data.flatten ++ bs) := by
  rw [hleft, recvLoop] at h
  obtain rfl : [] = bs := Option.some.inj (Prod.mk.inj h).1
  rw [List.append_nil]
  exact returns_of_none_left hreceived hleft

/-- The loop from any call on returns what the receiver of responses does. -/
theorem returns_of_recvLoop (hclean : sock.Clean) {passes : ℕ} {bs : List Byte} {sock' : Socket}
    {s : State} (hreceived : Received (socketPeer n sock hclean) s)
    (h : recvLoop passes (before n sock s.calls).1 (before n sock s.calls).2 = (some bs, sock')) :
    WhileLoop.Returns (pass .python3 (socketPeer n sock hclean)) s (s.data.flatten ++ bs) := by
  induction passes generalizing s bs with
  | zero =>
    rcases hleft : (before n sock s.calls).1 with _ | left
    · exact returns_of_recvLoop_zero hreceived hleft h
    · rw [hleft] at h
      exact absurd (Prod.mk.inj h).1 (by simp)
  | succ passes ih =>
    rcases hleft : (before n sock s.calls).1 with _ | left
    · exact returns_of_recvLoop_zero hreceived hleft h
    · rw [hleft, recvLoop] at h
      obtain ⟨chunk, sock'', hrecv, hmap⟩ := Parser.of_bind_some h
      obtain ⟨bs', hloop, rfl⟩ := Parser.of_map_some hmap
      have hchunk : socketChunk n sock s.calls = chunk := by
        rw [socketChunk, recvNext, hleft, hrecv]
        rfl
      have hnext : before n sock (s.calls + 1) = (left + 1 - chunk.length, sock'') := by
        rw [before_succ, hchunk, hleft, hrecv]
      have hpass : pass .python3 (socketPeer n sock hclean) s =
          .inl ⟨s.nRcv + chunk.length, s.data ++ [chunk], s.calls + 1⟩ := by
        rw [← hchunk]
        refine if_pos ?_
        have hall := length_joined_socketChunk n sock s.calls
        have hnRcv : s.nRcv = (joined (socketChunk n sock) s.calls).length := hreceived.nRcv
        omega
      have hrest := ih (hreceived.pass hpass) (by rw [hnext]; exact hloop)
      rw [List.flatten_append, List.flatten_singleton, List.append_assoc] at hrest
      exact WhileLoop.returns_of_inl hpass hrest

/-- What the receiver of responses gets from a socket is what the loop returns. -/
theorem recvAll_returns (hclean : sock.Clean) {bs : List Byte} {sock' : Socket}
    (h : PyReceive.recvAll n sock = (some bs, sock')) :
    Returns .python3 (socketPeer n sock hclean) bs :=
  returns_of_recvLoop hclean (start_received _) h

end Socket

end Koheron.RecvAll
