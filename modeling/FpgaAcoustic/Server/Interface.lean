-- SUMMARY: The interface that is generated for a driver: the cases of its switch, and the call that each of them makes.
import Mathlib.Data.List.Basic
import FpgaAcoustic.Client.Cli

/-!
# Interfaces

The interface of a driver has a case for each operation. The text of the call
is looked up by the tag of the operation, in a dictionary that is made from the
same operations, and it carries the ids of the answer as template arguments.
-/

namespace Drivers

open Cli (Dict)
open RegisterMap (Str)

/-! ## Generated code -/

/-- `upper`, of an identifier. -/
def upper (text : Str) : Str := text.map Char.toUpper

def Operation.tag (operation : Operation) : Str := upper operation.name

/-- The call in a case: the object, the method, the members of the argument
structure, and the ids of the answer, if there is one. -/
structure Call where
  object : Str
  method : Str
  args : List Str
  answer : Option (Option ℕ × ℕ)
  deriving DecidableEq, Repr

def generateCall (name : Str) (driverId : Option ℕ) (operation : Operation) : Call where
  object := "__".toList ++ name
  method := operation.name
  args := operation.arguments.map (·.name)
  answer := if operation.retType == "void".toList then none else some (driverId, operation.id)

def cmdCalls (name : Str) (driverId : Option ℕ) (operations : List Operation) : Dict Call :=
  operations.foldl (fun calls op => calls.set op.tag (generateCall name driverId op)) Dict.empty

/-- A case of the switch: the enumerator and its number, the arguments that the
parser reads, and the call. -/
structure Case where
  tag : Str
  id : ℕ
  arguments : List Argument
  call : Call
  deriving DecidableEq, Repr

/-- The loop of the template. A `KeyError` is none. -/
def cases (name : Str) (driverId : Option ℕ) (operations : List Operation) : Option (List Case) :=
  operations.mapM fun op => do
    let call ← cmdCalls name driverId operations op.tag
    pure ⟨op.tag, op.id, op.arguments, call⟩

/-- `render_driver`, of the driver and the number that its path gives. -/
def renderDriver (cppHeader : CppHeader) (driversList : List Str) (path : Str) :
    Option (List Case) := do
  let driverId ← getDriverId driversList path
  let devices ← parseHeader cppHeader (join ['.'] path)
  let (name, operations) ← devices[0]?
  cases name driverId operations

/-- The case that the number of a command selects; none for the default. -/
def select (interface : List Case) (operation : ℕ) : Option Case :=
  interface.find? (·.id == operation)

/-! ## Specification -/

/-- What the compiler asks for: one interface for a class, and no enumerator
twice. -/
structure Compiles (drivers : List Driver) : Prop where
  classes : (drivers.map (·.name)).Nodup
  tags : ∀ d ∈ drivers, (d.operations.map (·.tag)).Nodup

/-- What the case of an operation is to be: it reads the arguments of the
operation, calls the method, and answers under the ids of the operation. -/
def caseOf (name : Str) (driverId : Option ℕ) (op : Operation) : Case :=
  ⟨op.tag, op.id, op.arguments, generateCall name driverId op⟩

/-! ## Dictionaries -/

/-- A key has the value of the last item that sets it. -/
theorem foldl_set_eq {α β : Type} (key : β → Str) (value : β → α) (items : List β) (name : Str) :
    items.foldl (fun d x => d.set (key x) (value x)) Dict.empty name =
      (items.reverse.find? (key · == name)).map value := by
  induction items using List.reverseRecOn with
  | nil => rfl
  | append_singleton items x ih =>
    rw [List.foldl_concat, List.reverse_concat, List.find?_cons]
    cases hkey : key x == name with
    | true =>
      rw [← beq_iff_eq.mp hkey]
      exact Function.update_self ..
    | false =>
      rw [← ih]
      exact Function.update_of_ne (fun heq => beq_eq_false_iff_ne.mp hkey heq.symm) _ _

theorem foldl_set_of_nodup {α β : Type} (key : β → Str) (value : β → α) {items : List β}
    (h : (items.map key).Nodup) {x : β} (hx : x ∈ items) :
    items.foldl (fun d x => d.set (key x) (value x)) Dict.empty (key x) = some (value x) := by
  have hfound : items.reverse.find? (key · == key x) = some x := by
    obtain ⟨y, hy⟩ : ∃ y, items.reverse.find? (key · == key x) = some y :=
      Option.isSome_iff_exists.mp
        (List.find?_isSome.mpr ⟨x, List.mem_reverse.mpr hx, beq_self_eq_true _⟩)
    have hkey : key y = key x := by simpa using List.find?_some hy
    have hmem := List.mem_reverse.mp (List.mem_of_find?_eq_some hy)
    rw [hy, List.inj_on_of_nodup_map h hmem hx hkey]
  rw [foldl_set_eq, hfound, Option.map_some]

theorem foldl_set_eq_some_iff {α β : Type} (key : β → Str) (value : β → α) {items : List β}
    (h : (items.map key).Nodup) {name : Str} {v : α} :
    items.foldl (fun d x => d.set (key x) (value x)) Dict.empty name = some v ↔
      ∃ x ∈ items, key x = name ∧ value x = v := by
  constructor
  · intro hname
    rw [foldl_set_eq, Option.map_eq_some_iff] at hname
    obtain ⟨x, hfound, hvalue⟩ := hname
    have hmem := List.mem_reverse.mp (List.mem_of_find?_eq_some hfound)
    have hkey : key x = name := by simpa using List.find?_some hfound
    exact ⟨x, hmem, hkey, hvalue⟩
  · rintro ⟨x, hx, rfl, rfl⟩
    exact foldl_set_of_nodup key value h hx

/-! ## The numbers of the operations -/

theorem parseHeaderOperation_id {id : ℕ} {method : Method} {op : Operation}
    (h : parseHeaderOperation id method = some op) : op.id = id := by
  simp only [parseHeaderOperation, Option.bind_eq_bind, Option.bind_eq_some_iff, Option.pure_def,
    Option.some.injEq] at h
  obtain ⟨_, _, _, _, rfl⟩ := h
  rfl

/-- The operations of a class are numbered by their positions. -/
theorem parseDriverHeader_ids {cls : Class} {name : Str} {operations : List Operation}
    (h : parseDriverHeader cls = some (name, operations)) :
    operations.map (·.id) = List.range operations.length := by
  simp only [parseDriverHeader, Option.bind_eq_bind, Option.bind_eq_some_iff, Option.pure_def,
    Option.some.injEq, Prod.mk.injEq] at h
  obtain ⟨acc, hfold, -, rfl⟩ := h
  -- The loop keeps this of the list, with its length as the next number.
  suffices ∀ (methods : List Method) (acc acc' : List Operation × ℕ),
      acc.1.map (·.id) = List.range acc.2 → methods.foldlM _ acc = some acc' →
        acc'.1.map (·.id) = List.range acc'.2 by
    have hids := this _ _ _ rfl hfold
    have hlen := congrArg List.length hids
    rw [List.length_map, List.length_range] at hlen
    rw [hlen]
    exact hids
  intro methods
  induction methods with
  | nil =>
    intro acc acc' hacc hfold
    rw [List.foldlM_nil, Option.pure_def, Option.some.injEq] at hfold
    rwa [← hfold]
  | cons method rest ih =>
    intro acc acc' hacc hfold
    rw [List.foldlM_cons, Option.bind_eq_bind, Option.bind_eq_some_iff] at hfold
    obtain ⟨next, hnext, hrest⟩ := hfold
    refine ih next acc' ?_ hrest
    split_ifs at hnext with hop
    · simp only [Option.bind_eq_some_iff, Option.some.injEq] at hnext
      obtain ⟨op, hparse, rfl⟩ := hnext
      rw [List.map_append, hacc, List.map_singleton, parseHeaderOperation_id hparse]
      exact List.range_succ.symm
    · rw [Option.some.injEq] at hnext
      rwa [← hnext]

/-- The first class of the header of a driver is the driver. -/
theorem getDriver_header {cppHeader : CppHeader} {path : Str} {driverId : ℕ} {driver : Driver}
    (h : getDriver cppHeader path driverId = some driver) :
    ∃ devices, parseHeader cppHeader (join ['.'] path) = some devices ∧
      devices[0]? = some (driver.name, driver.operations) := by
  simp only [getDriver, Option.bind_eq_bind, Option.bind_eq_some_iff, Option.pure_def,
    Option.some.injEq] at h
  obtain ⟨devices, hdevices, _, hfirst, rfl⟩ := h
  exact ⟨devices, hdevices, hfirst⟩

section Table

variable {cppHeader : CppHeader} {driversList : List Str} {drivers : List Driver} {driver : Driver}

theorem getDriver_of_mem (h : getDrivers cppHeader driversList = some drivers)
    (hd : driver ∈ drivers) : getDriver cppHeader driver.path driver.id = some driver := by
  simp only [getDrivers, Option.bind_eq_bind, Option.bind_eq_some_iff, Option.pure_def,
    Option.some.injEq] at h
  obtain ⟨acc, hfold, rfl⟩ := h
  suffices ∀ (paths : List Str) (acc acc' : List Driver × ℕ),
      (∀ d ∈ acc.1, getDriver cppHeader d.path d.id = some d) →
        paths.foldlM (addDriver cppHeader) acc = some acc' →
          ∀ d ∈ acc'.1, getDriver cppHeader d.path d.id = some d from
    this _ _ _ (fun d hmem => absurd hmem List.not_mem_nil) hfold driver hd
  intro paths
  induction paths with
  | nil =>
    intro acc acc' hacc hfold
    rw [List.foldlM_nil, Option.pure_def, Option.some.injEq] at hfold
    rwa [← hfold]
  | cons path rest ih =>
    intro acc acc' hacc hfold
    rw [List.foldlM_cons, Option.bind_eq_bind, Option.bind_eq_some_iff] at hfold
    obtain ⟨next, hnext, hrest⟩ := hfold
    refine ih next acc' (fun d hmem => ?_) hrest
    rw [addDriver] at hnext
    split at hnext
    · simp only [Option.bind_eq_bind, Option.bind_eq_some_iff, Option.pure_def,
        Option.some.injEq] at hnext
      obtain ⟨new, hnew, rfl⟩ := hnext
      obtain hold | hlast := List.mem_append.mp hmem
      · exact hacc d hold
      · obtain ⟨hpath, hid⟩ := getDriver_path_id hnew
        rw [List.mem_singleton.mp hlast, hpath, hid]
        exact hnew
    · cases hnext

theorem operations_ids (h : getDrivers cppHeader driversList = some drivers)
    (hd : driver ∈ drivers) :
    driver.operations.map (·.id) = List.range driver.operations.length := by
  obtain ⟨devices, hdevices, hfirst⟩ := getDriver_header (getDriver_of_mem h hd)
  simp only [parseHeader, Option.bind_eq_bind, Option.bind_eq_some_iff] at hdevices
  obtain ⟨classes, -, hdevices⟩ := hdevices
  cases classes with
  | nil =>
    rw [List.mapM_nil, Option.pure_def, Option.some.injEq] at hdevices
    rw [← hdevices] at hfirst
    cases hfirst
  | cons cls rest =>
    simp only [List.mapM_cons, Option.bind_eq_bind, Option.bind_eq_some_iff, Option.pure_def,
      Option.some.injEq] at hdevices
    obtain ⟨device, hdevice, _, -, rfl⟩ := hdevices
    rw [List.getElem?_cons_zero, Option.some.injEq] at hfirst
    exact parseDriverHeader_ids (hdevice.trans (congrArg some hfirst))

theorem operation_id_eq (h : getDrivers cppHeader driversList = some drivers)
    (hd : driver ∈ drivers) {o : ℕ} {op : Operation} (hop : driver.operations[o]? = some op) :
    op.id = o := by
  obtain ⟨ho, -⟩ := List.getElem?_eq_some_iff.mp hop
  have hid : (driver.operations.map (·.id))[o]? = some op.id := by
    rw [List.getElem?_map, hop, Option.map_some]
  rw [operations_ids h hd, List.getElem?_range ho, Option.some.injEq] at hid
  exact hid.symm

theorem getDriverId_of_mem (h : getDrivers cppHeader driversList = some drivers)
    (hfiles : (driversList.map file).Nodup) (hd : driver ∈ drivers) :
    getDriverId driversList driver.path = some (some driver.id) := by
  obtain ⟨i, hget, hid⟩ := (mem_drivers_iff h).mp ⟨driver, hd, rfl, rfl⟩
  obtain ⟨hi, hpath⟩ := List.getElem?_eq_some_iff.mp hget
  rw [List.Nodup, List.pairwise_map, List.pairwise_iff_getElem] at hfiles
  rw [← hpath, hid]
  exact (getDriverId_eq_iff (getDrivers_eq h).1 hi).mpr fun j hj => hfiles j i (hj.trans hi) hi hj

end Table

/-! ## The cases -/

/-- A number finds the item at its position. -/
theorem find?_number {α : Type} (number : α → ℕ) {items : List α}
    (h : items.map number = List.range items.length) (o : ℕ) :
    items.find? (number · == o) = items[o]? := by
  have hnumber : ∀ i (hi : i < items.length), number items[i] = i := by
    intro i hi
    have hget : (items.map number)[i]? = some (number items[i]) := by
      rw [List.getElem?_map, List.getElem?_eq_getElem hi, Option.map_some]
    rw [h, List.getElem?_range hi, Option.some.injEq] at hget
    exact hget.symm
  by_cases ho : o < items.length
  · rw [List.getElem?_eq_getElem ho, List.find?_eq_some_iff_getElem]
    refine ⟨beq_iff_eq.mpr (hnumber o ho), o, ho, rfl, fun j hj => ?_⟩
    rw [hnumber j (hj.trans ho), beq_false_of_ne hj.ne]
    rfl
  · rw [List.getElem?_eq_none (Nat.le_of_not_lt ho), List.find?_eq_none]
    intro x hx hxo
    obtain ⟨i, hi, rfl⟩ := List.getElem_of_mem hx
    rw [hnumber i hi] at hxo
    exact ho (beq_iff_eq.mp hxo ▸ hi)

section Cases

variable {name : Str} {driverId : Option ℕ} {operations : List Operation}

theorem cases_eq (htags : (operations.map (·.tag)).Nodup) :
    cases name driverId operations = some (operations.map (caseOf name driverId)) := by
  refine RegisterMap.mapM_some fun op hop => ?_
  have hcall : cmdCalls name driverId operations op.tag = some (generateCall name driverId op) :=
    foldl_set_of_nodup Operation.tag (generateCall name driverId) htags hop
  rw [hcall]
  rfl

theorem select_cases (hids : operations.map (·.id) = List.range operations.length) (o : ℕ) :
    select (operations.map (caseOf name driverId)) o =
      operations[o]?.map (caseOf name driverId) := by
  rw [← List.getElem?_map]
  refine find?_number Case.id ?_ o
  rw [List.map_map, List.length_map]
  exact hids

end Cases

/-- Each number of the switch performs the operation with this number. -/
theorem select_renderDriver {cppHeader : CppHeader} {driversList : List Str}
    {drivers : List Driver} {driver : Driver}
    (h : getDrivers cppHeader driversList = some drivers) (hcompiles : Compiles drivers)
    (hfiles : (driversList.map file).Nodup) (hd : driver ∈ drivers) :
    ∃ interface, renderDriver cppHeader driversList driver.path = some interface ∧
      ∀ o, select interface o =
        driver.operations[o]?.map (caseOf driver.name (some driver.id)) := by
  obtain ⟨devices, hdevices, hfirst⟩ := getDriver_header (getDriver_of_mem h hd)
  refine ⟨driver.operations.map (caseOf driver.name (some driver.id)), ?_,
    select_cases (operations_ids h hd)⟩
  rw [renderDriver, getDriverId_of_mem h hfiles hd, hdevices]
  simp only [Option.bind_eq_bind, Option.bind_some, hfirst]
  exact cases_eq (hcompiles.tags driver hd)

end Drivers
