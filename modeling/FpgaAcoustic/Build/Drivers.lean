-- SUMMARY: The drivers of a configuration: their headers, their ids in the table and in the interfaces, and the list of commands.
import Mathlib.Data.List.Basic
import Mathlib.Data.List.Infix
import Mathlib.Data.List.Nodup
import Mathlib.Data.List.Range
import FpgaAcoustic.Build.RegisterMap

/-!
# Drivers

The server is generated in parts. The table of the drivers is made of the whole
list and numbers its entries by position, and the interface of each driver is
made on its own and looks its number up in the list, by the name of the file.
-/

namespace Drivers

open RegisterMap (Str)

/-! ## Texts -/

/-- The white space of `strip`. -/
def isspace (c : Char) : Bool :=
  (9 ≤ c.toNat && c.toNat ≤ 13) || (28 ≤ c.toNat && c.toNat ≤ 32) ||
    [0x85, 0xa0, 0x1680, 0x2028, 0x2029, 0x202f, 0x205f, 0x3000].contains c.toNat ||
    (0x2000 ≤ c.toNat && c.toNat ≤ 0x200a)

def strip (text : Str) : Str :=
  ((text.dropWhile isspace).reverse.dropWhile isspace).reverse

def contains (text part : Str) : Bool := text.tails.any part.isPrefixOf

/-- `os.path.split`. -/
def split (path : Str) : Str × Str :=
  let tail := (path.reverse.takeWhile (· != '/')).reverse
  let head := path.take (path.length - tail.length)
  if head.all (· == '/') then (head, tail)
  else ((head.reverse.dropWhile (· == '/')).reverse, tail)

/-- `os.path.join` of two paths. -/
def join (dir path : Str) : Str :=
  if path.head? == some '/' then path
  else if dir.isEmpty || dir.getLast? == some '/' then dir ++ path
  else dir ++ ['/'] ++ path

/-! ## Headers -/

structure Parameter where
  name : Str
  type : Str
  deriving DecidableEq, Repr

/-- A public method, as the parser of headers finds it. -/
structure Method where
  name : Str
  template : Bool
  rtnType : Str
  parameters : List Parameter

structure Class where
  name : Str
  methods : List Method

/-- The parser of headers: the classes of a file, in their order, or none where
it raises. -/
abbrev CppHeader := Str → Option (List Class)

structure Argument where
  name : Str
  type : Str
  byReference : Bool
  isConst : Bool
  deriving DecidableEq, Repr

structure Operation where
  name : Str
  id : ℕ
  retType : Str
  arguments : List Argument
  argsClient : List Parameter
  deriving DecidableEq, Repr

def forbiddenInts : List Str :=
  ["short".toList, "int".toList, "unsigned".toList, "long".toList, "unsigned short".toList,
    "short unsigned".toList, "unsigned int".toList, "int unsigned".toList, "unsigned long".toList,
    "long unsigned".toList, "long long".toList, "unsigned long long".toList,
    "long long unsigned".toList]

def checkType (type : Str) : Option Unit := if forbiddenInts.contains type then none else some ()

def isStdArray (argType : Str) : Bool :=
  let containerType := strip (argType.takeWhile (· != '<'))
  containerType == "std::array".toList || containerType == "const std::array".toList

/-- The type that a client is told; for an array a text that is cut out of the
generated string. -/
def formatType (type : Str) : Option Str :=
  if isStdArray type then do
    let inner ← (type.splitOn '<')[1]?
    let args ← (inner.splitOn '>')[0]?
    let first ← (args.splitOn ',')[0]?
    let second ← (args.splitOn ',')[1]?
    pure ("std::array<".toList ++ first ++ ", \" << ".toList ++ second ++ " << \">".toList)
  else some type

def parseArgument (param : Parameter) : Argument :=
  let type := strip param.type
  let (byReference, type) :=
    if type.getLast? == some '&' then (true, strip (type.take (type.length - 2)))
    else (false, type)
  let (isConst, type) :=
    if type.take 5 == "const".toList then (true, strip (type.drop 5)) else (false, type)
  ⟨param.name, type, byReference, isConst⟩

def parseHeaderOperation (id : ℕ) (method : Method) : Option Operation := do
  checkType method.rtnType
  let args ← method.parameters.mapM fun param => do
    let arg := parseArgument param
    checkType arg.type
    let type ← formatType arg.type
    pure (arg, (⟨arg.name, type⟩ : Parameter))
  pure ⟨method.name, id, method.rtnType, args.map Prod.fst, args.map Prod.snd⟩

/-- Constructor, destructor and templates are left out. -/
def isOperation (cls : Class) (method : Method) : Bool :=
  !(method.name == cls.name || method.name == ['~'] ++ cls.name) && !method.template

def parseDriverHeader (cls : Class) : Option (Str × List Operation) := do
  let (operations, _) ← cls.methods.foldlM (fun (operations, opId) method =>
    if isOperation cls method then do
      let operation ← parseHeaderOperation opId method
      pure (operations ++ [operation], opId + 1)
    else pure (operations, opId)) (([] : List Operation), 0)
  pure (cls.name, operations)

def parseHeader (cppHeader : CppHeader) (hppfile : Str) : Option (List (Str × List Operation)) := do
  let classes ← cppHeader hppfile
  classes.mapM parseDriverHeader

/-! ## The table -/

structure Driver where
  path : Str
  id : ℕ
  name : Str
  operations : List Operation
  deriving DecidableEq, Repr

/-- The driver of the first class of a header. -/
def getDriver (cppHeader : CppHeader) (path : Str) (driverId : ℕ) : Option Driver := do
  let devices ← parseHeader cppHeader (join ['.'] path)
  let (name, operations) ← devices[0]?
  pure ⟨path, driverId, name, operations⟩

/-- The condition of the two `assert`s. -/
def isHeader (path : Str) : Bool :=
  ".hpp".toList.isSuffixOf path || ".h".toList.isSuffixOf path

/-- One pass of the loop, with `drivers` and `driver_id`. -/
def addDriver (cppHeader : CppHeader) : List Driver × ℕ → Str → Option (List Driver × ℕ)
  | (drivers, driverId), path =>
    if isHeader path then do
      let driver ← getDriver cppHeader path driverId
      pure (drivers ++ [driver], driverId + 1)
    else none

def getDrivers (cppHeader : CppHeader) (driversList : List Str) : Option (List Driver) := do
  let (drivers, _) ← driversList.foldlM (addDriver cppHeader) ([], 2)
  pure drivers

/-! ## The number of an interface -/

/-- The loop over the list. The outer option is none where the `assert` fails. -/
def getDriverId.loop (driverPath : Str) : List Str → ℕ → Option (Option ℕ)
  | [], _ => some none
  | path :: rest, driverId =>
    if isHeader path then
      let (_, file1) := split path
      let (_, file2) := split driverPath
      if file1 == file2 then some (some driverId) else loop driverPath rest (driverId + 1)
    else none

def getDriverId (driversList : List Str) (driverPath : Str) : Option (Option ℕ) :=
  getDriverId.loop driverPath driversList 2

/-! ## The list of commands -/

def getExactRetType (className : Str) (operation : Operation) : Str :=
  if contains operation.retType "auto".toList || isStdArray operation.retType then
    let declArgList := operation.arguments.map fun arg =>
      "std::declval<".toList ++ arg.type ++ ">()".toList
    "decltype(std::declval<".toList ++ className ++ ">().".toList ++ operation.name ++ ['('] ++
      " ,".toList.intercalate declArgList ++ "))".toList
  else operation.retType

def formatRetType (className : Str) (operation : Operation) : Str :=
  if contains operation.retType "auto".toList || isStdArray operation.retType then
    "\" << get_type_str<".toList ++ getExactRetType className operation ++ ">() << \"".toList
  else operation.retType

structure Function where
  name : Str
  id : ℕ
  retType : Str
  args : List Parameter
  deriving DecidableEq, Repr

/-- An object of the published list, with its `class`. -/
structure Entry where
  className : Str
  id : ℕ
  functions : List Function
  deriving DecidableEq, Repr

def kServer : Entry where
  className := "KServer".toList
  id := 1
  functions :=
    [⟨"get_version".toList, 0, "const char *".toList, []⟩,
      ⟨"get_cmds".toList, 1, "std::string".toList, []⟩]

def driverEntry (driver : Driver) : Entry where
  className := driver.name
  id := driver.id
  functions := driver.operations.map fun op =>
    ⟨op.name, op.id, formatRetType driver.name op, op.argsClient⟩

/-- The objects that `get_json` makes a text of. -/
def getJson (drivers : List Driver) : List Entry := kServer :: drivers.map driverEntry

/-! ## Specification -/

/-- The interface that is generated for each entry of the table has the number
of the entry, and no two interfaces of the list have one number. -/
structure Agreement (driversList : List Str) (drivers : List Driver) : Prop where
  same : ∀ d ∈ drivers, getDriverId driversList d.path = some (some d.id)
  distinct : (driversList.map (getDriverId driversList)).Nodup

/-- What the loop compares. -/
def file (path : Str) : Str := (split path).2

/-! ## The numbers of the table -/

section Table

variable {cppHeader : CppHeader} {driversList : List Str} {drivers : List Driver}

theorem getDriver_path_id {path : Str} {driverId : ℕ} {d : Driver}
    (h : getDriver cppHeader path driverId = some d) : d.path = path ∧ d.id = driverId := by
  simp only [getDriver, Option.bind_eq_bind, Option.bind_eq_some_iff, Option.pure_def,
    Option.some.injEq] at h
  obtain ⟨_, _, _, _, rfl⟩ := h
  exact ⟨rfl, rfl⟩

theorem addDriver_eq_some {acc acc' : List Driver × ℕ} {path : Str}
    (h : addDriver cppHeader acc path = some acc') :
    isHeader path = true ∧ ∃ d : Driver, d.path = path ∧ d.id = acc.2 ∧
      acc' = (acc.1 ++ [d], acc.2 + 1) := by
  rw [addDriver] at h
  split at h
  · rename_i hheader
    simp only [Option.bind_eq_bind, Option.bind_eq_some_iff, Option.pure_def,
      Option.some.injEq] at h
    obtain ⟨d, hd, rfl⟩ := h
    obtain ⟨hpath, hid⟩ := getDriver_path_id hd
    exact ⟨hheader, d, hpath, hid, rfl⟩
  · cases h

/-- Induction on the list, from any number on. -/
theorem foldlM_addDriver {acc acc' : List Driver × ℕ}
    (h : driversList.foldlM (addDriver cppHeader) acc = some acc') :
    (∀ path ∈ driversList, isHeader path = true) ∧
      ∃ new, acc'.1 = acc.1 ++ new ∧
        new.map (fun d => (d.path, d.id)) = driversList.zipIdx acc.2 := by
  induction driversList generalizing acc with
  | nil =>
    rw [List.foldlM_nil, Option.pure_def, Option.some.injEq] at h
    subst h
    exact ⟨fun _ hmem => absurd hmem List.not_mem_nil, [], (List.append_nil _).symm, rfl⟩
  | cons path rest ih =>
    rw [List.foldlM_cons, Option.bind_eq_bind, Option.bind_eq_some_iff] at h
    obtain ⟨next, hnext, hrest⟩ := h
    obtain ⟨hheader, d, hpath, hid, rfl⟩ := addDriver_eq_some hnext
    obtain ⟨hheaders, new, hout, hnew⟩ := ih hrest
    refine ⟨fun p hp => ?_, d :: new, ?_, ?_⟩
    · rcases List.mem_cons.mp hp with rfl | hp
      · exact hheader
      · exact hheaders p hp
    · rw [hout, List.append_assoc]
      rfl
    · rw [List.map_cons, hnew, hpath, hid, List.zipIdx_cons]

/-- The table has an entry for each path, numbered from two on. -/
theorem getDrivers_eq (h : getDrivers cppHeader driversList = some drivers) :
    (∀ path ∈ driversList, isHeader path = true) ∧
      drivers.map (fun d => (d.path, d.id)) = driversList.zipIdx 2 := by
  simp only [getDrivers, Option.bind_eq_bind, Option.bind_eq_some_iff, Option.pure_def,
    Option.some.injEq] at h
  obtain ⟨acc, hfold, rfl⟩ := h
  obtain ⟨hheaders, new, hout, hnew⟩ := foldlM_addDriver hfold
  rw [List.nil_append] at hout
  rw [hout]
  exact ⟨hheaders, hnew⟩

theorem mem_drivers_iff (h : getDrivers cppHeader driversList = some drivers) {path : Str} {n : ℕ} :
    (∃ d ∈ drivers, d.path = path ∧ d.id = n) ↔ ∃ i, driversList[i]? = some path ∧ n = 2 + i := by
  have hmem : (∃ d ∈ drivers, d.path = path ∧ d.id = n) ↔ (path, n) ∈ driversList.zipIdx 2 := by
    rw [← (getDrivers_eq h).2, List.mem_map]
    simp only [Prod.mk.injEq]
  rw [hmem, List.mem_zipIdx_iff_le_and_getElem?_sub]
  constructor
  · rintro ⟨hle, hget⟩
    exact ⟨n - 2, hget, by omega⟩
  · rintro ⟨i, hget, rfl⟩
    rw [Nat.add_sub_cancel_left]
    exact ⟨Nat.le_add_right 2 i, hget⟩

end Table

/-! ## The number of an interface -/

section Interface

variable {cppHeader : CppHeader} {driversList : List Str} {drivers : List Driver} {path : Str}

/-- The loop returns the number of the first path with the name of the file. -/
theorem loop_eq (hheaders : ∀ p ∈ driversList, isHeader p = true) (driverId : ℕ) :
    getDriverId.loop path driversList driverId =
      some ((driversList.findIdx? fun p => file p == file path).map (· + driverId)) := by
  induction driversList generalizing driverId with
  | nil => rfl
  | cons p rest ih =>
    have hheader := hheaders p List.mem_cons_self
    have hrest := ih (fun q hq => hheaders q (List.mem_cons_of_mem p hq)) (driverId + 1)
    rw [getDriverId.loop, if_pos hheader, List.findIdx?_cons]
    show (if file p == file path then _ else _) = _
    cases file p == file path with
    | true =>
      rw [if_pos rfl, if_pos rfl, Option.map_some, Nat.zero_add]
    | false =>
      rw [if_neg Bool.false_ne_true, if_neg Bool.false_ne_true, hrest, Option.map_map]
      have hshift : ((· + (driverId + 1)) : ℕ → ℕ) = (· + driverId) ∘ fun i => i + 1 := by
        funext i
        show i + (driverId + 1) = i + 1 + driverId
        omega
      rw [hshift]

/-- The interface of the entry at a position has its number just when no file
before has its name. -/
theorem getDriverId_eq_iff (hheaders : ∀ p ∈ driversList, isHeader p = true) {i : ℕ}
    (hi : i < driversList.length) :
    getDriverId driversList driversList[i] = some (some (2 + i)) ↔
      ∀ j (hj : j < i), file driversList[j] ≠ file driversList[i] := by
  rw [getDriverId, loop_eq hheaders, Option.some.injEq, Option.map_eq_some_iff]
  simp only [List.findIdx?_eq_some_iff_getElem, beq_iff_eq]
  constructor
  · rintro ⟨k, ⟨hk, -, hfirst⟩, hki⟩ j hj
    exact hfirst j (by omega)
  · intro hfirst
    exact ⟨i, ⟨hi, rfl, hfirst⟩, Nat.add_comm i 2⟩

theorem same_iff (h : getDrivers cppHeader driversList = some drivers) :
    (∀ d ∈ drivers, getDriverId driversList d.path = some (some d.id)) ↔
      ∀ i (hi : i < driversList.length),
        getDriverId driversList driversList[i] = some (some (2 + i)) := by
  constructor
  · intro hsame i hi
    obtain ⟨d, hd, hpath, hid⟩ :=
      (mem_drivers_iff h).mpr ⟨i, List.getElem?_eq_getElem hi, rfl⟩
    rw [← hpath, ← hid]
    exact hsame d hd
  · intro hall d hd
    obtain ⟨i, hget, hid⟩ := (mem_drivers_iff h).mp ⟨d, hd, rfl, rfl⟩
    obtain ⟨hi, hpath⟩ := List.getElem?_eq_some_iff.mp hget
    rw [hid, ← hpath]
    exact hall i hi

/-- The numbers agree just when no two drivers of the list have files of one
name. -/
theorem agreement_iff (h : getDrivers cppHeader driversList = some drivers) :
    Agreement driversList drivers ↔ (driversList.map file).Nodup := by
  have hheaders := (getDrivers_eq h).1
  have hnodup : (driversList.map file).Nodup ↔
      ∀ i (hi : i < driversList.length),
        getDriverId driversList driversList[i] = some (some (2 + i)) := by
    rw [List.Nodup, List.pairwise_map, List.pairwise_iff_getElem]
    constructor
    · intro hne i hi
      exact (getDriverId_eq_iff hheaders hi).mpr fun j hj => hne j i (hj.trans hi) hi hj
    · intro hall i j hi hj hij
      exact (getDriverId_eq_iff hheaders hj).mp (hall j hj) i hij
  rw [hnodup]
  refine ⟨fun hagree => (same_iff h).mp hagree.same, fun hall => ⟨(same_iff h).mpr hall, ?_⟩⟩
  rw [List.Nodup, List.pairwise_map, List.pairwise_iff_getElem]
  intro i j hi hj hij heq
  rw [hall i hi, hall j hj, Option.some.injEq, Option.some.injEq] at heq
  omega

end Interface

/-! ## Two headers -/

/-- Every header has one class, without methods. -/
def emptyHeader : CppHeader := fun _ => some [⟨"Device".toList, []⟩]

theorem emptyHeader_agreement :
    Agreement ["a/dma.hpp".toList, "a/common.hpp".toList]
      [⟨"a/dma.hpp".toList, 2, "Device".toList, []⟩,
        ⟨"a/common.hpp".toList, 3, "Device".toList, []⟩] :=
  (@agreement_iff emptyHeader _ _ (by decide)).mpr (by decide)

/-- The second of two files of one name has number 3 in the table, and its
interface has number 2. -/
theorem emptyHeader_not_agreement :
    getDrivers emptyHeader ["a/dma.hpp".toList, "b/dma.hpp".toList] =
        some [⟨"a/dma.hpp".toList, 2, "Device".toList, []⟩,
          ⟨"b/dma.hpp".toList, 3, "Device".toList, []⟩] ∧
      getDriverId ["a/dma.hpp".toList, "b/dma.hpp".toList] "b/dma.hpp".toList = some (some 2) ∧
      ¬ Agreement ["a/dma.hpp".toList, "b/dma.hpp".toList]
        [⟨"a/dma.hpp".toList, 2, "Device".toList, []⟩,
          ⟨"b/dma.hpp".toList, 3, "Device".toList, []⟩] := by
  refine ⟨by decide, by decide, fun h => ?_⟩
  have hsame := h.same ⟨"b/dma.hpp".toList, 3, "Device".toList, []⟩ (by decide)
  revert hsame
  decide

end Drivers
