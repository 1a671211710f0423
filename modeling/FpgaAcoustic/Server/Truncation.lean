-- SUMMARY: TCP commands that the peer does not finish, and which of them the server executes.
import FpgaAcoustic.Server.Tcp

/-!
# Truncated commands

When the peer closes the connection `rcv_n_bytes` returns 0, and only negative
values are errors. So the parser goes on to the end of the command, on whatever
the buffers and the arguments held before.
-/

namespace Koheron.Tcp

open Bytes

/-- The peer has closed, and all it sent has been read. -/
def Dry (s : State) : Prop := s.sock = []

/-- No read fails. -/
def Clean (s : State) : Prop := s.sock.Clean

theorem clean_receive {sock : Socket} (h : sock.Clean) (n : ℕ) : (sock.receive n).2.2.Clean := by
  rcases lt_or_ge sock.flat.length n with hlt | hle
  · rw [Socket.receive_short h hlt]
    simp [Socket.Clean]
  · obtain ⟨sock', hrec, -, hclean⟩ :=
      Socket.receive_full (List.take_append_drop n sock.flat).symm
    rw [List.length_take, Nat.min_eq_left hle] at hrec
    rw [hrec]
    exact hclean h

/-- A read of `n` bytes finds the end of the stream, or `n` is 0 there. -/
def Starved (n : ℕ) (s : State) : Prop := Dry s ∨ Clean s ∧ s.sock.flat.length < n

/-- The call reports no error, and the stream is at its end after it. -/
def RunsDry {α : Type} (f : State → (ℤ × α) × State) (s : State) : Prop :=
  0 ≤ (f s).1.1 ∧ Dry (f s).2

/-! ## Calls at the end of the stream -/

theorem rcvNBytes_starved {n : ℕ} {s : State} (h : Starved n s) (buffer : Memory) :
    (rcvNBytes buffer n s).1.1 = 0 ∧ Dry (rcvNBytes buffer n s).2 := by
  rcases h with hdry | ⟨hclean, hlt⟩
  · rcases s with ⟨sock, stale⟩
    obtain rfl : sock = [] := hdry
    cases n with
    | zero => exact ⟨rfl, rfl⟩
    | succ n => exact ⟨rfl, rfl⟩
  · have hrec := Socket.receive_short hclean hlt
    simp only [rcvNBytes, hrec, Dry, and_self]

theorem deserialize_runsDry {tys : List Scalar} {s : State}
    (h : Starved (requiredBufferSize tys) s) : RunsDry (deserialize tys) s := by
  cases tys with
  | nil =>
    rcases h with hdry | ⟨-, hlt⟩
    · exact ⟨le_rfl, hdry⟩
    · exact absurd hlt (Nat.not_lt_zero _)
  | cons ty tys =>
    obtain ⟨herr, hdry⟩ := rcvNBytes_starved (s := s.next.2) h s.next.1.buffer
    have hret : (deserialize (ty :: tys) s).1.1 = toInt32
        (rcvNBytes s.next.1.buffer (requiredBufferSize (ty :: tys)) s.next.2).1.1 := rfl
    refine ⟨?_, hdry⟩
    rw [hret, herr]
    exact le_rfl

theorem recvArray_runsDry {ty : Scalar} {n : ℕ} {s : State} (h : Starved (n * ty.size) s) :
    RunsDry (recvArray ty n) s := by
  obtain ⟨herr, hdry⟩ := rcvNBytes_starved (s := s.next.2) h s.next.1.buffer
  have hret : (recvArray ty n s).1.1 = toInt32
      (rcvNBytes s.next.1.buffer (n * ty.size) s.next.2).1.1 := rfl
  refine ⟨?_, hdry⟩
  rw [hret, herr]
  exact le_rfl

/-- The length of a container is then whatever the buffer holds. -/
theorem getPackLength_starved {s : State} (h : Starved Scalar.uint32.size s) :
    ∃ (n : ℕ) (s' : State), getPackLength s = ((n : ℤ), s') ∧ Dry s' := by
  obtain ⟨herr, hdry⟩ := rcvNBytes_starved (s := s.next.2) h s.next.1.buffer
  refine ⟨(extract .uint32 (rcvNBytes s.next.1.buffer Scalar.uint32.size s.next.2).1.2).toNat, _,
    ?_, hdry⟩
  have hret : getPackLength s =
      if (rcvNBytes s.next.1.buffer Scalar.uint32.size s.next.2).1.1 < 0 then
        (-1, (rcvNBytes s.next.1.buffer Scalar.uint32.size s.next.2).2)
      else
        (((extract .uint32 (rcvNBytes s.next.1.buffer Scalar.uint32.size s.next.2).1.2).toNat : ℤ),
          (rcvNBytes s.next.1.buffer Scalar.uint32.size s.next.2).2) := rfl
  rw [hret, herr, if_neg (lt_irrefl 0)]

theorem recvVector_runsDry {ty : Scalar} {vec : List ty.Val} {n : ℕ} {s s' : State}
    (hlen : getPackLength s = ((n : ℤ), s')) (h : Starved (n / ty.size * ty.size) s') :
    RunsDry (recvVector ty vec) s := by
  have hdiv : (n : ℤ).tdiv ty.size = (n / ty.size : ℕ) := rfl
  obtain ⟨herr, hdry⟩ :=
    rcvNBytes_starved h (Memory.ofBytes (images ty (vec.takeD (n / ty.size) ty.zero)))
  unfold RunsDry recvVector
  simp only [hlen, hdiv]
  rw [if_neg (Int.natCast_nonneg _).not_gt]
  simp only [Int.toNat_natCast]
  refine ⟨?_, hdry⟩
  rw [herr]
  exact le_rfl

theorem recvString_runsDry {str : List Byte} {n : ℕ} {s s' : State}
    (hlen : getPackLength s = ((n : ℤ), s')) (h : Starved n s') :
    RunsDry (recvString str) s := by
  obtain ⟨herr, hdry⟩ := rcvNBytes_starved h (Memory.ofBytes (str.takeD n 0))
  unfold RunsDry recvString
  simp only [hlen]
  rw [if_neg (Int.natCast_nonneg _).not_gt]
  simp only [Int.toNat_natCast]
  refine ⟨?_, hdry⟩
  rw [herr]
  exact le_rfl

theorem clean_getPackLength {s : State} (h : Clean s) : Clean (getPackLength s).2 := by
  have hret : (getPackLength s).2 = (rcvNBytes s.next.1.buffer Scalar.uint32.size s.next.2).2 := by
    unfold getPackLength
    simp only [apply_ite Prod.snd, ite_self]
  rw [hret]
  exact clean_receive h _

theorem clean_recvVector {s : State} (h : Clean s) (ty : Scalar) (vec : List ty.Val) :
    Clean (recvVector ty vec s).2 := by
  have hlen := clean_getPackLength h
  unfold recvVector
  dsimp only
  split
  · exact hlen
  · exact clean_receive hlen _

theorem clean_recvString {s : State} (h : Clean s) (str : List Byte) :
    Clean (recvString str s).2 := by
  have hlen := clean_getPackLength h
  unfold recvString
  dsimp only
  split
  · exact hlen
  · exact clean_receive hlen _

theorem clean_parsePack (p : Pack) {s : State} (h : Clean s) : Clean (session.parsePack p s).2 := by
  have hnext : Clean s.next.2 := h
  cases p with
  | scalars tys =>
    rw [Session.parsePack, checked_map_state]
    cases tys with
    | nil => exact h
    | cons ty tys => exact clean_receive hnext _
  | array ty n =>
    rw [Session.parsePack, checked_map_state]
    exact clean_receive hnext _
  | vector ty =>
    rw [Session.parsePack, checked_map_state]
    exact clean_recvVector hnext ty (s.next.1.vector ty)
  | string =>
    rw [Session.parsePack, checked_map_state]
    exact clean_recvString hnext s.next.1.string

theorem RunsDry.parse {α β : Type} {f : State → (ℤ × α) × State} {s : State} (h : RunsDry f s)
    (g : α → β) : ∃ b s', (checked f).map g s = (some b, s') ∧ Dry s' := by
  have hsome : checked f s = (some (f s).1.2, (f s).2) := if_neg h.1.not_gt
  exact ⟨_, _, Parser.map_some hsome, h.2⟩

/-- At the end of the stream every pack is accepted. -/
theorem parsePack_dry (p : Pack) {s : State} (h : Dry s) :
    ∃ vs s', session.parsePack p s = (some vs, s') ∧ Dry s' := by
  cases p with
  | scalars tys => exact (deserialize_runsDry (.inl h)).parse _
  | array ty n => exact (recvArray_runsDry (.inl h)).parse _
  | vector ty =>
    obtain ⟨n, s', hlen, hdry⟩ := getPackLength_starved (s := s.next.2) (.inl h)
    have hruns : RunsDry (session.recvVector ty) s := by
      simp only [RunsDry, session]
      exact recvVector_runsDry hlen (.inl hdry)
    exact hruns.parse _
  | string =>
    obtain ⟨n, s', hlen, hdry⟩ := getPackLength_starved (s := s.next.2) (.inl h)
    have hruns : RunsDry session.recvString s := by
      simp only [RunsDry, session]
      exact recvString_runsDry hlen (.inl hdry)
    exact hruns.parse _

/-- The part of a container ends in its length or in its body. -/
theorem getPackLength_part {bs : List Byte} (hbs : bs.length < 2 ^ 32) {s : State}
    (hclean : Clean s) (hpre : s.sock.flat <+: prefixed bs)
    (hlt : s.sock.flat.length < (prefixed bs).length) :
    ∃ (n : ℕ) (s' : State), getPackLength s.next.2 = ((n : ℤ), s') ∧
      (Dry s' ∨ n = bs.length ∧ Starved bs.length s') := by
  rcases lt_or_ge s.sock.flat.length Scalar.uint32.size with hshort | hlong
  · obtain ⟨n, s', hlen, hdry⟩ := getPackLength_starved (s := s.next.2) (.inr ⟨hclean, hshort⟩)
    exact ⟨n, s', hlen, .inl hdry⟩
  · obtain ⟨part, hpart⟩ : append32 (BitVec.ofNat 32 bs.length) <+: s.sock.flat :=
      List.prefix_of_prefix_length_le (List.prefix_append _ _) hpre hlong
    obtain ⟨s', hlen, hrest⟩ := getPackLength_full (s := s.next.2) hpart.symm
    have hclean' := clean_getPackLength (s := s.next.2) hclean
    rw [hlen] at hclean'
    refine ⟨_, s', hlen, .inr ⟨?_, .inr ⟨hclean', ?_⟩⟩⟩
    · rw [BitVec.toNat_ofNat, Nat.mod_eq_of_lt hbs]
    · rw [← hpart, prefixed, List.length_append, List.length_append] at hlt
      rw [hrest]
      omega

/-- A pack of which the peer sends a part only is accepted. -/
theorem parsePack_short {g : Group} (hsized : g.Sized) {s : State} (hclean : Clean s)
    (hpre : s.sock.flat <+: g.wire) (hlt : s.sock.flat.length < g.wire.length) :
    ∃ vs s', session.parsePack g.pack s = (some vs, s') ∧ Dry s' := by
  cases g with
  | scalars ds =>
    rw [Group.wire, length_serialize] at hlt
    exact (deserialize_runsDry (.inr ⟨hclean, hlt⟩)).parse _
  | array ty es =>
    rw [Group.wire, length_images] at hlt
    exact (recvArray_runsDry (.inr ⟨hclean, hlt⟩)).parse _
  | vector ty es =>
    obtain ⟨n, s', hlen, hstarved⟩ := getPackLength_part hsized hclean hpre hlt
    have hruns : RunsDry (session.recvVector ty) s := by
      simp only [RunsDry, session]
      refine recvVector_runsDry hlen ?_
      rcases hstarved with hdry | ⟨rfl, hstarved⟩
      · exact .inl hdry
      · rwa [length_images, Nat.mul_div_cancel _ ty.size_pos, ← length_images]
    exact hruns.parse _
  | string bytes =>
    obtain ⟨n, s', hlen, hstarved⟩ := getPackLength_part hsized hclean hpre hlt
    have hruns : RunsDry session.recvString s := by
      simp only [RunsDry, session]
      refine recvString_runsDry hlen ?_
      rcases hstarved with hdry | ⟨rfl, hstarved⟩
      · exact .inl hdry
      · exact hstarved
    exact hruns.parse _

/-! ## Executing a part of a command -/

/-- The groups that lie within the first `n` bytes. -/
def complete : ℕ → List Group → List Group
  | _, [] => []
  | n, g :: gs => if g.wire.length ≤ n then g :: complete (n - g.wire.length) gs else []

/-- A part of the arguments ends in a group, after the complete ones. -/
theorem exists_split {gs : List Group} {bs : List Byte} (hpre : bs <+: gs.flatMap Group.wire)
    (hlt : bs.length < (gs.flatMap Group.wire).length) :
    ∃ g rest part, gs = complete bs.length gs ++ g :: rest ∧
      bs = (complete bs.length gs).flatMap Group.wire ++ part ∧
      part <+: g.wire ∧ part.length < g.wire.length := by
  induction gs generalizing bs with
  | nil => simp at hlt
  | cons g gs ih =>
    rw [List.flatMap_cons] at hpre hlt
    by_cases hle : g.wire.length ≤ bs.length
    · obtain ⟨cs, rfl⟩ : g.wire <+: bs :=
        List.prefix_of_prefix_length_le (List.prefix_append _ _) hpre hle
      have hcs : cs <+: gs.flatMap Group.wire := (List.prefix_append_right_inj _).mp hpre
      rw [List.length_append, List.length_append] at hlt
      obtain ⟨g', rest, part, hgs, hbs, hpre, hshort⟩ := ih hcs (by omega)
      have hcomplete : complete (g.wire ++ cs).length (g :: gs) = g :: complete cs.length gs := by
        rw [List.length_append, complete, if_pos (Nat.le_add_right _ _), Nat.add_sub_cancel_left]
      refine ⟨g', rest, part, ?_, ?_, hpre, hshort⟩
      · rw [hcomplete, List.cons_append, ← hgs]
      · rw [hcomplete, List.flatMap_cons, List.append_assoc, ← hbs]
    · refine ⟨g, gs, bs, ?_, ?_, ?_, not_le.mp hle⟩
      · rw [complete, if_neg hle, List.nil_append]
      · rw [complete, if_neg hle]
        rfl
      · exact List.prefix_of_prefix_length_le hpre (List.prefix_append _ _) (by omega)

theorem clean_readCommand {s : State} (h : Clean s) : Clean (readCommand s).2 := by
  have hret : (readCommand s).2 = (rcvNBytes s.next.1.buffer headerSize s.next.2).2 := by
    unfold readCommand
    simp only [apply_ite Prod.snd, ite_self]
  rw [hret]
  exact clean_receive h _

/-- Only a complete group can make the parser fail. -/
theorem parse_part_eq_none_iff {args : List Value} {bs : List Byte} {s : State}
    (hsized : ∀ v ∈ args, v.Sized) (hclean : Clean s) (hflat : Ahead s bs)
    (hbs : bs <+: args.flatMap Value.wire) (hlt : bs.length < (args.flatMap Value.wire).length) :
    (session.parse (args.map Value.type) s).1 = none ↔
      ∃ g ∈ complete bs.length (groups [] args), toInt32 g.body.length < 0 := by
  rw [← flatMap_wire_groups] at hbs hlt
  obtain ⟨g, rest, part, hgroups, hpart, hpre, hshort⟩ := exists_split hbs hlt
  have hsizes : ∀ g ∈ groups [] args, g.Sized := sized_groups hsized
  generalize complete bs.length (groups [] args) = done at hgroups hpart ⊢
  rw [Session.parse_eq, hgroups, List.map_append]
  rw [hgroups] at hsizes
  have hcomplete := fun g hg => parsePack_complete (hsizes g (List.mem_append_left _ hg))
  have hahead : Ahead s (done.flatMap Group.wire ++ part) := hflat.trans hpart
  by_cases hneg : ∃ g ∈ done, toInt32 g.body.length < 0
  · refine iff_of_true (Parser.seq_append_none ?_) hneg
    have hpacks : ∀ g ∈ done, Parser.Decodes Ahead (session.parsePack g.pack) g.wire g.values ∨
        Parser.Rejects Ahead (session.parsePack g.pack) g.wire := by
      intro g hg
      rcases lt_or_ge (toInt32 g.body.length) 0 with hlt | hge
      · exact .inr ((hcomplete g hg).2 hlt)
      · exact .inl ((hcomplete g hg).1 hge)
    obtain ⟨g, hg, hlt⟩ := hneg
    exact Parser.seq_rejects hpacks ⟨g, hg, (hcomplete g hg).2 hlt⟩ s part hahead
  · refine iff_of_false ?_ hneg
    push Not at hneg
    obtain ⟨s₁, hs₁, hpart₁, hclean₁⟩ := Parser.seq_decodes
      (fun g hg => ((hcomplete g hg).1 (hneg g hg)).frame (I := Clean) fun s =>
        clean_parsePack g.pack)
      s part ⟨hahead, hclean⟩
    have hflat₁ : s₁.sock.flat = part := hpart₁
    rw [← hflat₁] at hpre hshort
    obtain ⟨vs, s₂, hs₂, hdry⟩ := parsePack_short (hsizes g (by simp)) hclean₁ hpre hshort
    have hdrys : ∀ p ∈ rest.map fun g => session.parsePack g.pack, ∀ s, Dry s →
        ∃ vs s', p s = (some vs, s') ∧ Dry s' := by
      intro p hp s hs
      obtain ⟨g, -, rfl⟩ := List.mem_map.mp hp
      exact parsePack_dry g.pack hs
    obtain ⟨ws, s₃, hs₃, -⟩ := Parser.seq_total hdrys hdry
    rw [Parser.seq_append_some hs₁, Parser.map_eq_none, List.map_cons, Parser.seq,
      Parser.bind_some hs₂, Parser.map_eq_none, hs₃]
    simp

section Command

variable {table : Table} {driver operation : BitVec 16} {args : List Value}
  {reserved part : List Byte} {s : State}

theorem serve_short (hclean : s.sock.Clean) (hlt : s.sock.flat.length < headerSize) :
    (serve table s).1 = none := by
  obtain ⟨herr, -⟩ := rcvNBytes_starved (s := s.next.2) (.inr ⟨hclean, hlt⟩) s.next.1.buffer
  have hread : readCommand s =
      (none, (rcvNBytes s.next.1.buffer headerSize s.next.2).2) := by
    have hret : readCommand s =
        if toInt32 (rcvNBytes s.next.1.buffer headerSize s.next.2).1.1 ≤ 0 then
          (none, (rcvNBytes s.next.1.buffer headerSize s.next.2).2)
        else
          (some (headerIds (rcvNBytes s.next.1.buffer headerSize s.next.2).1.2),
            (rcvNBytes s.next.1.buffer headerSize s.next.2).2) := rfl
    rw [hret, herr]
    exact if_pos le_rfl
  rw [serve, Parser.bind_none hread]

end Command

/-- One operation, with a number and a string. -/
def numberAndString : Table := fun driver operation =>
  if driver = 2 ∧ operation = 0 then some [.scalar .uint32, .string] else none

/-- A request for it, with the number 7 and the string of bytes 1 and 2. -/
def sevenRequest : List Byte :=
  commandHeader [0, 0, 0, 0] 2 0 ++
    [.scalar ⟨.uint32, 7⟩, .string [1, 2]].flatMap Value.wire

end Koheron.Tcp
