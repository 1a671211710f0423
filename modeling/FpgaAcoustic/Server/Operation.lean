-- SUMMARY: Operation signatures, their arguments on the wire, the packs of `build_args_packs`, and the generated parser over any kind of session.
import FpgaAcoustic.Bytes.Parser
import FpgaAcoustic.Server.Serdes

/-!
# Operations

The code generator joins adjacent scalars into one pack and emits one
`deserialize` or `recv` call for each pack. The call is the same for every kind
of session, so the parser is stated over the four functions that it calls.
-/

namespace Koheron

open Bytes

/-! ## Signatures and arguments -/

/-- The type of a parameter. -/
inductive ArgType
  | scalar (ty : Scalar)
  | array (ty : Scalar) (n : ℕ)
  | vector (ty : Scalar)
  | string
  deriving DecidableEq, Repr

/-- An argument. -/
inductive Value
  | scalar (d : Datum)
  | array (ty : Scalar) (es : List ty.Val)
  | vector (ty : Scalar) (es : List ty.Val)
  | string (bytes : List Byte)
  deriving DecidableEq

/-- The parameter that an argument is for. -/
def Value.type : Value → ArgType
  | .scalar d => .scalar d.ty
  | .array ty es => .array ty es.length
  | .vector ty _ => .vector ty
  | .string _ => .string

/-- The bytes of a dynamic container, after their number. -/
def prefixed (bs : List Byte) : List Byte := append32 (BitVec.ofNat 32 bs.length) ++ bs

/-- An argument as it travels. -/
def Value.wire : Value → List Byte
  | .scalar d => append d.ty d.val
  | .array ty es => images ty es
  | .vector ty es => prefixed (images ty es)
  | .string bytes => prefixed bytes

/-- The number of bytes of a container fits the 32 bits in which it is sent. -/
def Value.Sized : Value → Prop
  | .scalar _ | .array _ _ => True
  | .vector ty es => (images ty es).length < 2 ^ 32
  | .string bytes => bytes.length < 2 ^ 32

instance : (v : Value) → Decidable v.Sized
  | .scalar _ | .array _ _ => inferInstanceAs (Decidable True)
  | .vector ty es => inferInstanceAs (Decidable ((images ty es).length < 2 ^ 32))
  | .string bytes => inferInstanceAs (Decidable (bytes.length < 2 ^ 32))

/-! ## Packs -/

/-- What one call of the generated parser reads. -/
inductive Pack
  | scalars (tys : List Scalar)
  | array (ty : Scalar) (n : ℕ)
  | vector (ty : Scalar)
  | string
  deriving DecidableEq, Repr

/-- The scalars of `args_list` as a pack, if there are any. -/
def closePack (argsList : List Scalar) : List Pack :=
  if argsList.length > 0 then [.scalars argsList] else []

/-- The loop of `build_args_packs`, with `args_list` as it stands. -/
def buildArgsPacks (argsList : List Scalar) : List ArgType → List Pack
  | [] => closePack argsList
  | .array ty n :: args => closePack argsList ++ .array ty n :: buildArgsPacks [] args
  | .vector ty :: args => closePack argsList ++ .vector ty :: buildArgsPacks [] args
  | .string :: args => closePack argsList ++ .string :: buildArgsPacks [] args
  | .scalar ty :: args => buildArgsPacks (argsList ++ [ty]) args

/-- The arguments of one pack. -/
inductive Group
  | scalars (ds : List Datum)
  | array (ty : Scalar) (es : List ty.Val)
  | vector (ty : Scalar) (es : List ty.Val)
  | string (bytes : List Byte)

namespace Group

def pack : Group → Pack
  | .scalars ds => .scalars (ds.map Datum.ty)
  | .array ty es => .array ty es.length
  | .vector ty _ => .vector ty
  | .string _ => .string

def values : Group → List Value
  | .scalars ds => ds.map .scalar
  | .array ty es => [.array ty es]
  | .vector ty es => [.vector ty es]
  | .string bytes => [.string bytes]

/-- The bytes of the group, without the length of a container. -/
def body : Group → List Byte
  | .scalars ds => serialize ds
  | .array ty es => images ty es
  | .vector ty es => images ty es
  | .string bytes => bytes

def wire : Group → List Byte
  | .scalars ds => serialize ds
  | .array ty es => images ty es
  | .vector ty es => prefixed (images ty es)
  | .string bytes => prefixed bytes

/-- The number of bytes of a container fits the 32 bits in which it is sent. -/
def Sized : Group → Prop
  | .scalars _ | .array _ _ => True
  | .vector ty es => (images ty es).length < 2 ^ 32
  | .string bytes => bytes.length < 2 ^ 32

end Group

/-- Pending scalars as a group, if there are any. -/
def closeGroup (ds : List Datum) : List Group :=
  if ds.length > 0 then [.scalars ds] else []

/-- The arguments pack by pack. -/
def groups (ds : List Datum) : List Value → List Group
  | [] => closeGroup ds
  | .array ty es :: args => closeGroup ds ++ .array ty es :: groups [] args
  | .vector ty es :: args => closeGroup ds ++ .vector ty es :: groups [] args
  | .string bytes :: args => closeGroup ds ++ .string bytes :: groups [] args
  | .scalar d :: args => groups (ds ++ [d]) args

theorem map_pack_closeGroup (ds : List Datum) :
    (closeGroup ds).map Group.pack = closePack (ds.map Datum.ty) := by
  cases ds <;> rfl

/-- The groups are for the packs of the signature. -/
theorem map_pack_groups (ds : List Datum) (args : List Value) :
    (groups ds args).map Group.pack = buildArgsPacks (ds.map Datum.ty) (args.map Value.type) := by
  induction args generalizing ds with
  | nil => exact map_pack_closeGroup ds
  | cons arg args ih =>
    cases arg with
    | scalar d =>
      have hih := ih (ds ++ [d])
      rw [List.map_append] at hih
      exact hih
    | _ =>
      simp only [groups, List.map_append, List.map_cons, ih, map_pack_closeGroup]
      rfl

/-- What a group is made of is made of its arguments, and these keep their order. -/
theorem flatMap_groups {β : Type} {F : Group → List β} {f : Value → List β}
    (hscalars : ∀ ds, F (.scalars ds) = ds.flatMap fun d => f (.scalar d))
    (harray : ∀ ty es, F (.array ty es) = f (.array ty es))
    (hvector : ∀ ty es, F (.vector ty es) = f (.vector ty es))
    (hstring : ∀ bytes, F (.string bytes) = f (.string bytes)) (ds : List Datum)
    (args : List Value) :
    (groups ds args).flatMap F = (ds.flatMap fun d => f (.scalar d)) ++ args.flatMap f := by
  have hclose : ∀ ds, (closeGroup ds).flatMap F = ds.flatMap fun d => f (.scalar d) := by
    intro ds
    cases ds with
    | nil => rfl
    | cons d ds => simp [closeGroup, hscalars]
  induction args generalizing ds with
  | nil => simp [groups, hclose]
  | cons arg args ih =>
    cases arg with
    | scalar d => simp [groups, ih]
    | _ => simp [groups, ih, hclose, harray, hvector, hstring]

/-- The groups hold the arguments. -/
theorem flatMap_values_groups (args : List Value) :
    (groups [] args).flatMap Group.values = args := by
  have hgroups := flatMap_groups (F := Group.values) (f := fun v => [v])
    (fun ds => List.map_eq_flatMap) (fun _ _ => rfl) (fun _ _ => rfl)
    (fun _ => rfl) [] args
  simpa using hgroups

/-- The groups travel as the arguments do. -/
theorem flatMap_wire_groups (args : List Value) :
    (groups [] args).flatMap Group.wire = args.flatMap Value.wire :=
  flatMap_groups (fun _ => rfl) (fun _ _ => rfl) (fun _ _ => rfl) (fun _ => rfl) [] args

theorem Group.length_body_le (g : Group) : g.body.length ≤ g.wire.length := by
  cases g with
  | scalars ds | array ty es => exact le_rfl
  | vector ty es | string bytes => simp [body, wire, prefixed]

/-- No container is longer than all arguments together. -/
theorem length_body_le_of_mem {g : Group} {args : List Value} (hg : g ∈ groups [] args) :
    g.body.length ≤ (args.flatMap Value.wire).length := by
  have hsub : g.wire.Sublist ((groups [] args).flatMap Group.wire) := by
    rw [List.flatMap_def]
    exact List.sublist_flatten_of_mem (List.mem_map_of_mem hg)
  rw [← flatMap_wire_groups]
  exact g.length_body_le.trans hsub.length_le

/-- Pending scalars end up in a pack that they begin. -/
theorem exists_scalars_mem_groups {ds : List Datum} (hds : ds ≠ []) (args : List Value) :
    ∃ es, .scalars (ds ++ es) ∈ groups ds args := by
  induction args generalizing ds with
  | nil =>
    refine ⟨[], ?_⟩
    simp [groups, closeGroup, List.length_pos_iff.mpr hds]
  | cons arg args ih =>
    cases arg with
    | scalar d =>
      obtain ⟨es, hes⟩ := @ih (ds ++ [d]) (by simp)
      refine ⟨d :: es, ?_⟩
      rwa [List.append_assoc] at hes
    | _ =>
      refine ⟨[], ?_⟩
      simp [groups, closeGroup, List.length_pos_iff.mpr hds]

/-- What holds of the scalar groups, and of a container just when it holds of
the argument. -/
theorem forall_groups {P : Group → Prop} {Q : Value → Prop}
    (harray : ∀ ty es, P (.array ty es) ↔ Q (.array ty es))
    (hvector : ∀ ty es, P (.vector ty es) ↔ Q (.vector ty es))
    (hstring : ∀ bytes, P (.string bytes) ↔ Q (.string bytes)) (hscalar : ∀ d, Q (.scalar d))
    {ds : List Datum} {args : List Value}
    (hscalars : ∀ es, .scalars es ∈ groups ds args → P (.scalars es)) :
    (∀ g ∈ groups ds args, P g) ↔ ∀ v ∈ args, Q v := by
  have hclose : ∀ {ds gs}, (∀ es, .scalars es ∈ closeGroup ds ++ gs → P (.scalars es)) →
      ((∀ g ∈ closeGroup ds ++ gs, P g) ↔ ∀ g ∈ gs, P g) := by
    intro ds gs h
    rw [List.forall_mem_append, and_iff_right_iff_imp]
    intro _ g hg
    cases ds with
    | nil => simp [closeGroup] at hg
    | cons d ds =>
      obtain rfl : g = .scalars (d :: ds) := by simpa [closeGroup] using hg
      exact h _ (List.mem_append_left _ hg)
  induction args generalizing ds with
  | nil =>
    have hnil := @hclose ds [] (by simpa [groups] using hscalars)
    simpa [groups] using hnil
  | cons arg args ih =>
    cases arg with
    | scalar d =>
      rw [List.forall_mem_cons, and_iff_right (hscalar d)]
      exact ih hscalars
    | array ty es =>
      rw [groups, hclose hscalars, List.forall_mem_cons, List.forall_mem_cons]
      exact and_congr (harray ty es) (ih fun es hes =>
        hscalars es (List.mem_append_right _ (List.mem_cons_of_mem _ hes)))
    | vector ty es =>
      rw [groups, hclose hscalars, List.forall_mem_cons, List.forall_mem_cons]
      exact and_congr (hvector ty es) (ih fun es hes =>
        hscalars es (List.mem_append_right _ (List.mem_cons_of_mem _ hes)))
    | string bytes =>
      rw [groups, hclose hscalars, List.forall_mem_cons, List.forall_mem_cons]
      exact and_congr (hstring bytes) (ih fun es hes =>
        hscalars es (List.mem_append_right _ (List.mem_cons_of_mem _ hes)))

theorem sized_groups {args : List Value} (h : ∀ v ∈ args, v.Sized) :
    ∀ g ∈ groups [] args, g.Sized :=
  (forall_groups (fun _ _ => Iff.rfl) (fun _ _ => Iff.rfl) (fun _ => Iff.rfl) (fun _ => trivial)
    fun _ _ => trivial).mpr h

/-! ## Return values -/

/-- `int64_t` to `int`. -/
def toInt32 (n : ℤ) : ℤ := n.bmod (2 ^ 32)

theorem toInt32_of_lt {n : ℕ} (h : n < 2 ^ 31) : toInt32 n = n := by
  unfold toInt32
  rw [Int.bmod_eq_of_le] <;> omega

theorem toInt32_neg {n : ℕ} (hge : 2 ^ 31 ≤ n) (hlt : n < 2 ^ 32) : toInt32 n < 0 := by
  unfold toInt32
  rw [Int.bmod_def]
  omega

/-! ## The generated parser -/

/-- The `deserialize` and `recv` functions of a kind of session. Each returns an
error code and what it has read. -/
structure Session (σ : Type) where
  deserialize : List Scalar → σ → (ℤ × List Datum) × σ
  recvArray : (ty : Scalar) → ℕ → σ → (ℤ × List ty.Val) × σ
  recvVector : (ty : Scalar) → σ → (ℤ × List ty.Val) × σ
  recvString : σ → (ℤ × List Byte) × σ

/-- `if (err < 0) return -1`. -/
def checked {σ α : Type} (f : σ → (ℤ × α) × σ) : Parser σ α := fun s =>
  let r := f s
  if r.1.1 < 0 then (none, r.2) else (some r.1.2, r.2)

/-- With `bs` ahead, `f` takes exactly `bs` and returns `err` and `a`. -/
def Returns {σ α : Type} (Ahead : σ → List Byte → Prop) (f : σ → (ℤ × α) × σ) (bs : List Byte)
    (err : ℤ) (a : α) : Prop :=
  ∀ s rest, Ahead s (bs ++ rest) → ∃ s', f s = ((err, a), s') ∧ Ahead s' rest

section Returns

variable {σ α : Type} {Ahead : σ → List Byte → Prop} {f : σ → (ℤ × α) × σ} {bs : List Byte}
  {err : ℤ} {a : α}

theorem Returns.decodes (h : Returns Ahead f bs err a) (herr : 0 ≤ err) :
    Parser.Decodes Ahead (checked f) bs a := by
  intro s rest hs
  obtain ⟨s', hf, hrest⟩ := h s rest hs
  refine ⟨s', ?_, hrest⟩
  simp [checked, hf, herr]

theorem Returns.rejects (h : Returns Ahead f bs err a) (herr : err < 0) :
    Parser.Rejects Ahead (checked f) bs := by
  intro s rest hs
  obtain ⟨s', hf, -⟩ := h s rest hs
  simp [checked, hf, herr]

theorem checked_map_state {β : Type} (g : α → β) (s : σ) : ((checked f).map g s).2 = (f s).2 := by
  rw [Parser.map_state, checked]
  split <;> rfl

theorem checked_map_some {β : Type} {g : α → β} {s : σ} {b : β}
    (h : ((checked f).map g s).1 = some b) : b = g (f s).1.2 := by
  rcases lt_or_ge (f s).1.1 0 with hneg | hpos
  · have hnone : checked f s = (none, (f s).2) := if_pos hneg
    rw [Parser.map_none hnone] at h
    simp at h
  · have hsome : checked f s = (some (f s).1.2, (f s).2) := if_neg hpos.not_gt
    rw [Parser.map_some hsome] at h
    exact (Option.some.inj h).symm

end Returns

namespace Session

variable {σ : Type} (session : Session σ)

/-- The code generated for a pack. -/
def parsePack : Pack → Parser σ (List Value)
  | .scalars tys => (checked (session.deserialize tys)).map fun ds => ds.map .scalar
  | .array ty n => (checked (session.recvArray ty n)).map fun es => [.array ty es]
  | .vector ty => (checked (session.recvVector ty)).map fun es => [.vector ty es]
  | .string => (checked session.recvString).map fun bytes => [.string bytes]

/-- The code that `parser_generator` emits: the arguments of the driver method,
or no call of it. -/
def parse (args : List ArgType) : Parser σ (List Value) :=
  Parser.seq ((buildArgsPacks [] args).map session.parsePack)

variable {session} {Ahead : σ → List Byte → Prop} {args : List Value}

theorem parse_eq (args : List Value) :
    session.parse (args.map Value.type) =
      Parser.seq ((groups [] args).map fun g => session.parsePack g.pack) := by
  have hpacks := map_pack_groups [] args
  rw [List.map_nil] at hpacks
  rw [parse, ← hpacks, List.map_map]
  rfl

section Packs

variable {wire : Group → List Byte}

theorem parse_decodes
    (h : ∀ g ∈ groups [] args,
      Parser.Decodes Ahead (session.parsePack g.pack) (wire g) g.values) :
    Parser.Decodes Ahead (session.parse (args.map Value.type)) ((groups [] args).flatMap wire)
      args := by
  have hseq := Parser.seq_decodes h
  rw [flatMap_values_groups, ← parse_eq] at hseq
  exact hseq

theorem parse_rejects
    (h : ∀ g ∈ groups [] args,
      Parser.Decodes Ahead (session.parsePack g.pack) (wire g) g.values ∨
        Parser.Rejects Ahead (session.parsePack g.pack) (wire g))
    (hex : ∃ g ∈ groups [] args, Parser.Rejects Ahead (session.parsePack g.pack) (wire g)) :
    Parser.Rejects Ahead (session.parse (args.map Value.type)) ((groups [] args).flatMap wire) := by
  have hseq := Parser.seq_rejects h hex
  rw [← parse_eq] at hseq
  exact hseq

theorem parse_misreads
    (h : ∀ g ∈ groups [] args,
      Parser.Decodes Ahead (session.parsePack g.pack) (wire g) g.values ∨
        Parser.Misreads Ahead (session.parsePack g.pack) (wire g) g.values)
    (hex : ∃ g ∈ groups [] args,
      Parser.Misreads Ahead (session.parsePack g.pack) (wire g) g.values) :
    Parser.Misreads Ahead (session.parse (args.map Value.type)) ((groups [] args).flatMap wire)
      args := by
  have hseq := Parser.seq_misreads h hex
  rw [flatMap_values_groups, ← parse_eq] at hseq
  exact hseq

end Packs

end Session

/-! ## Commands -/

/-- `HEADER_SIZE`. -/
def headerSize : ℕ := 8

/-- `HEADER_START`. -/
def headerStart : ℕ := 4

/-- The operations that the driver manager finds, with their signatures. -/
abbrev Table : Type := BitVec 16 → BitVec 16 → Option (List ArgType)

/-- A call of a driver method. -/
structure Call where
  driver : BitVec 16
  operation : BitVec 16
  args : List Value
  deriving DecidableEq

/-- The driver and operation ids in a header. -/
def headerIds (header : Memory) : BitVec 16 × BitVec 16 :=
  (extract .uint16 (header.drop headerStart), extract .uint16 (header.drop (headerStart + 2)))

/-- The execution of a command: no call where the ids or the arguments are refused. -/
def execute {σ : Type} (session : Session σ) (table : Table) (ids : BitVec 16 × BitVec 16) :
    Parser σ Call :=
  match table ids.1 ids.2 with
  | none => fun s => (none, s)
  | some sig => (session.parse sig).map fun args => ⟨ids.1, ids.2, args⟩

/-- The first bytes of a command. -/
def commandHeader (reserved : List Byte) (driver operation : BitVec 16) : List Byte :=
  reserved ++ (append16 driver ++ append16 operation)

theorem length_commandHeader {reserved : List Byte} (hres : reserved.length = headerStart)
    (driver operation : BitVec 16) :
    (commandHeader reserved driver operation).length = headerSize := by
  rw [commandHeader, List.length_append, hres]
  rfl

theorem headerIds_commandHeader {reserved : List Byte} (hres : reserved.length = headerStart)
    {driver operation : BitVec 16} {header : Memory}
    (h : header.Starts (commandHeader reserved driver operation)) :
    headerIds header = (driver, operation) := by
  obtain ⟨-, hids⟩ := Memory.starts_append.mp h
  obtain ⟨hdriver, hop⟩ := Memory.starts_append.mp hids
  rw [hres] at hdriver hop
  exact Prod.ext (extract16_append hdriver) (extract16_append hop)

/-- The ids are in the first bytes. -/
theorem headerIds_of_starts {header : Memory} {bs : List Byte} (h : header.Starts bs)
    (hlen : bs.length = headerSize) : headerIds header = headerIds (Memory.ofBytes bs) := by
  have hsize : headerSize = 8 := rfl
  have hbyte : ∀ i < 8, header i = Memory.ofBytes bs i :=
    fun i hi => h.apply_eq_ofBytes (by omega)
  simp only [headerIds, extract, extract16, headerStart, Memory.drop_apply]
  rw [hbyte _ (by decide), hbyte _ (by decide), hbyte _ (by decide), hbyte _ (by decide)]

theorem execute_of_table {σ : Type} {session : Session σ} {table : Table}
    {driver operation : BitVec 16} {sig : List ArgType}
    (h : table driver operation = some sig) :
    execute session table (driver, operation) =
      (session.parse sig).map fun args => ⟨driver, operation, args⟩ := by
  simp only [execute, h]

end Koheron
