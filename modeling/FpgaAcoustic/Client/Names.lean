-- SUMMARY: How the Python client finds the numbers of a command by its name, and the method that the server runs for these numbers.
import FpgaAcoustic.Client.Cli
import FpgaAcoustic.Server.Dispatch
import FpgaAcoustic.Server.Interface

/-!
# Names

A client knows a command by the names of its class and of its method, and sends
two numbers. The numbers come out of the published list, the table of the
drivers and the interface of each driver are generated from the same headers,
and the manager finds the driver by its position.
-/

namespace Cli

open Drivers (Operation Entry Function Parameter Driver CppHeader Compiles getDrivers kServer
  renderDriver select caseOf file formatRetType foldl_set_eq_some_iff)
open Koheron (ArgType Config DriverManager)
open RegisterMap (Str)

/-! ## Calls by name -/

/-- None for a `KeyError`, an `IndexError`, or a subscript of `None`. -/
def getIds (client : Client) (deviceName commandName : Str) :
    Option (ℕ × ℕ × List Parameter) := do
  let deviceId ← client.devicesIdx deviceName
  let cmdsIdx ← (← client.cmdsIdxList[deviceId]?)
  let cmdId ← cmdsIdx commandName
  let cmdsArgs ← (← client.cmdsArgsList[deviceId]?)
  let cmdArgs ← cmdsArgs commandName
  pure (deviceId, cmdId, cmdArgs)

/-- What the checks of a returned type read. -/
def getRetType (client : Client) (deviceName commandName : Str) : Option Str := do
  let deviceId ← client.devicesIdx deviceName
  let cmdsRetTypes ← (← client.cmdsRetTypesList[deviceId]?)
  cmdsRetTypes commandName

/-! ## Specification -/

section Specification

variable {drivers : List Driver}

/-- The drivers as the server is compiled with them. The types of the arguments
are those that the compiler finds for the texts, and the constructors get what
they get. -/
def config (types : Operation → List ArgType)
    (gets : Fin drivers.length → List (Fin drivers.length)) (hpos : 0 < drivers.length) :
    Config where
  n := drivers.length
  driver d := ⟨drivers[d].operations.map types, gets d⟩
  pos := hpos

/-- What the server has under two numbers is this operation of this driver: the
manager dispatches each command with the numbers to it, whatever happened
before, and the case of the interface calls the method and answers under the
same numbers. -/
structure Runs (cppHeader : CppHeader) (driversList : List Str) (types : Operation → List ArgType)
    (gets : Fin drivers.length → List (Fin drivers.length)) (hpos : 0 < drivers.length)
    (driver : Driver) (op : Operation) (d o : ℕ) : Prop where
  driverId : driver.id = d
  operationId : op.id = o
  dispatched : ∀ (m : DriverManager drivers.length) (ids : BitVec 16 × BitVec 16),
    DriverManager.Reachable (config types gets hpos) m → ids.1.toNat = d → ids.2.toNat = o →
      (DriverManager.execute (config types gets hpos) ids m).1 = .operation d o (types op)
  called : ∃ interface, renderDriver cppHeader driversList driver.path = some interface ∧
    select interface o = some (caseOf driver.name (some d) op)

end Specification

/-! ## The tables of the client -/

/-- The entry has its dictionaries under its number. -/
structure Tables (client : Client) (e : Entry) : Prop where
  idx : client.cmdsIdxList[e.id]? =
    some (some (e.functions.foldl (fun d cmd => d.set cmd.name cmd.id) Dict.empty))
  args : client.cmdsArgsList[e.id]? =
    some (some (e.functions.foldl (fun d cmd => d.set cmd.name cmd.args) Dict.empty))
  retTypes : client.cmdsRetTypesList[e.id]? =
    some (some (e.functions.foldl (fun d cmd => d.set cmd.name cmd.retType) Dict.empty))

section Load

variable {client next final : Client} {device : Entry} {entries : List Entry}

theorem setItem_eq_some {α : Type} {items items' : List α} {index : ℕ} {value : α}
    (h : setItem items index value = some items') :
    items'[index]? = some value ∧ ∀ i, i ≠ index → items'[i]? = items[i]? := by
  unfold setItem at h
  split at h
  · rename_i hlt
    rw [Option.some.injEq] at h
    subst h
    exact ⟨List.getElem?_set_self hlt, fun i hi => List.getElem?_set_ne hi.symm⟩
  · cases h

theorem loadDevice_tables (h : loadDevice client device = some next) :
    Tables next device ∧ (∀ e, e.id ≠ device.id → Tables client e → Tables next e) ∧
      next.devicesIdx = client.devicesIdx.set device.className device.id := by
  simp only [loadDevice, Option.bind_eq_bind, Option.bind_eq_some_iff, Option.pure_def,
    Option.some.injEq] at h
  obtain ⟨_, hidx, _, hargs, _, hret, rfl⟩ := h
  obtain ⟨hidx, hidx'⟩ := setItem_eq_some hidx
  obtain ⟨hargs, hargs'⟩ := setItem_eq_some hargs
  obtain ⟨hret, hret'⟩ := setItem_eq_some hret
  refine ⟨⟨hidx, hargs, hret⟩, fun e hne htables => ?_, rfl⟩
  exact ⟨(hidx' _ hne).trans htables.idx, (hargs' _ hne).trans htables.args,
    (hret' _ hne).trans htables.retTypes⟩

theorem foldlM_tables (h : entries.foldlM loadDevice client = some final)
    (hids : (entries.map (·.id)).Nodup) :
    (∀ e ∈ entries, Tables final e) ∧
      (∀ e, e.id ∉ entries.map (·.id) → Tables client e → Tables final e) ∧
      final.devicesIdx = entries.foldl (fun d e => d.set e.className e.id) client.devicesIdx := by
  induction entries generalizing client with
  | nil =>
    rw [List.foldlM_nil, Option.pure_def, Option.some.injEq] at h
    subst h
    exact ⟨fun e he => absurd he List.not_mem_nil, fun _ _ htables => htables, rfl⟩
  | cons device rest ih =>
    rw [List.foldlM_cons, Option.bind_eq_bind, Option.bind_eq_some_iff] at h
    obtain ⟨next, hnext, hrest⟩ := h
    rw [List.map_cons, List.nodup_cons] at hids
    obtain ⟨hdevice, hkept, hidx⟩ := loadDevice_tables hnext
    obtain ⟨hall, hkept', hidx'⟩ := ih hrest hids.2
    refine ⟨fun e he => ?_, fun e he htables => ?_, ?_⟩
    · obtain rfl | he := List.mem_cons.mp he
      · exact hkept' e hids.1 hdevice
      · exact hall e he
    · rw [List.map_cons, List.mem_cons, not_or] at he
      exact hkept' e he.2 (hkept e he.1 htables)
    · rw [hidx', hidx, List.foldl_cons]

theorem devicesIdx_eq_some_iff (h : loadDevices entries = some client)
    (hids : (entries.map (·.id)).Nodup) (hclasses : (entries.map (·.className)).Nodup)
    {device : Str} {d : ℕ} :
    client.devicesIdx device = some d ↔ ∃ e ∈ entries, e.className = device ∧ e.id = d := by
  rw [(foldlM_tables h hids).2.2]
  exact foldl_set_eq_some_iff Entry.className Entry.id hclasses

/-- The numbers are found for the names of each function of the list, and for
no other names. -/
theorem getIds_eq_some_iff (h : loadDevices entries = some client)
    (hids : (entries.map (·.id)).Nodup) (hclasses : (entries.map (·.className)).Nodup)
    (hnames : ∀ e ∈ entries, (e.functions.map (·.name)).Nodup) {device cmd : Str} {d o : ℕ}
    {args : List Parameter} :
    getIds client device cmd = some (d, o, args) ↔
      ∃ e ∈ entries, ∃ f ∈ e.functions,
        e.className = device ∧ e.id = d ∧ f.name = cmd ∧ f.id = o ∧ f.args = args := by
  have htables := (foldlM_tables h hids).1
  simp only [getIds, Option.bind_eq_bind, Option.bind_eq_some_iff, Option.pure_def,
    Option.some.injEq, Prod.mk.injEq, devicesIdx_eq_some_iff h hids hclasses]
  constructor
  · rintro ⟨_, ⟨e, he, hclass, rfl⟩, _, hidx, _, rfl, _, ho, _, hargs, _, rfl, _, ha, rfl, rfl, rfl⟩
    rw [(htables e he).idx, Option.some.injEq, Option.some.injEq] at hidx
    rw [(htables e he).args, Option.some.injEq, Option.some.injEq] at hargs
    subst hidx hargs
    obtain ⟨f, hf, hname, hid⟩ :=
      (foldl_set_eq_some_iff Function.name Function.id (hnames e he)).mp ho
    obtain ⟨f', hf', hname', harg⟩ :=
      (foldl_set_eq_some_iff Function.name Function.args (hnames e he)).mp ha
    obtain rfl : f' = f :=
      List.inj_on_of_nodup_map (hnames e he) hf' hf (hname'.trans hname.symm)
    exact ⟨e, he, f', hf, hclass, rfl, hname, hid, harg⟩
  · rintro ⟨e, he, f, hf, hclass, rfl, hname, hid, harg⟩
    refine ⟨_, ⟨e, he, hclass, rfl⟩, _, (htables e he).idx, _, rfl, _, ?_, _,
      (htables e he).args, _, rfl, _, ?_, rfl, rfl, rfl⟩
    · exact (foldl_set_eq_some_iff Function.name Function.id (hnames e he)).mpr ⟨f, hf, hname, hid⟩
    · exact (foldl_set_eq_some_iff Function.name Function.args (hnames e he)).mpr
        ⟨f, hf, hname, harg⟩

theorem getRetType_of_mem (h : loadDevices entries = some client)
    (hids : (entries.map (·.id)).Nodup) (hclasses : (entries.map (·.className)).Nodup)
    (hnames : ∀ e ∈ entries, (e.functions.map (·.name)).Nodup) {e : Entry} (he : e ∈ entries)
    {f : Function} (hf : f ∈ e.functions) :
    getRetType client e.className f.name = some f.retType := by
  have hdevice := (devicesIdx_eq_some_iff h hids hclasses).mpr ⟨e, he, rfl, rfl⟩
  have hret := (foldl_set_eq_some_iff Function.name Function.retType (hnames e he)).mpr
    ⟨f, hf, rfl, rfl⟩
  simp only [getRetType, hdevice, ((foldlM_tables h hids).1 e he).retTypes, Option.bind_eq_bind,
    Option.bind_some, hret]

end Load

/-! ## The published list -/

section Published

variable {cppHeader : CppHeader} {driversList : List Str} {drivers : List Driver}

/-- What a client is told of an operation. -/
def publishedFunction (fillType : Str → Str) (driver : Driver) (op : Operation) : Function where
  name := op.name
  id := op.id
  retType := fillType (formatRetType driver.name op)
  args := op.argsClient.map fun arg => { arg with type := fillType arg.type }

def publishedEntry (fillType : Str → Str) (driver : Driver) : Entry where
  className := driver.name
  id := driver.id
  functions := driver.operations.map (publishedFunction fillType driver)

theorem publish_eq (fillType : Str → Str) (drivers : List Driver) :
    publish fillType drivers =
      publish fillType [] ++ drivers.map (publishedEntry fillType) := by
  simp only [publish, Drivers.getJson, List.map_cons, List.map_map, List.map_nil]
  refine congrArg (List.cons _) (List.map_congr_left fun driver _ => ?_)
  simp [Drivers.driverEntry, publishedEntry, publishedFunction, Function.comp_def]

/-- The drivers are numbered from two on. -/
theorem driver_id_eq (h : getDrivers cppHeader driversList = some drivers) {i : ℕ}
    {driver : Driver} (hget : drivers[i]? = some driver) : driver.id = i + 2 := by
  refine (publish_numbered h id).id_eq (e := publishedEntry id driver) (i := i + 1) ?_
  rw [publish_eq]
  show (drivers.map (publishedEntry id))[i]? = _
  rw [List.getElem?_map, hget, Option.map_some]

theorem names_nodup (hcompiles : Compiles drivers) {driver : Driver} (hd : driver ∈ drivers) :
    (driver.operations.map (·.name)).Nodup := by
  have htags : ((driver.operations.map (·.name)).map Drivers.upper).Nodup := by
    rw [List.map_map]
    exact hcompiles.tags driver hd
  exact htags.of_map

/-- The entries of the list have numbers and names of their own, and so have
their functions. -/
theorem publish_nodup (h : getDrivers cppHeader driversList = some drivers)
    (hcompiles : Compiles drivers) (hserver : ∀ d ∈ drivers, d.name ≠ kServer.className)
    (fillType : Str → Str) :
    ((publish fillType drivers).map (·.id)).Nodup ∧
      ((publish fillType drivers).map (·.className)).Nodup ∧
      ∀ e ∈ publish fillType drivers, (e.functions.map (·.name)).Nodup := by
  refine ⟨?_, ?_, ?_⟩
  · rw [publish_numbered h fillType]
    exact List.nodup_range'
  · rw [publish_eq, List.map_append, List.map_map]
    show (kServer.className :: drivers.map (·.name)).Nodup
    refine List.nodup_cons.mpr ⟨fun hmem => ?_, hcompiles.classes⟩
    obtain ⟨d, hd, hname⟩ := List.mem_map.mp hmem
    exact hserver d hd hname
  · intro e he
    rw [publish_eq] at he
    obtain hown | hdriver := List.mem_append.mp he
    · rw [List.mem_singleton.mp hown]
      show (kServer.functions.map (·.name)).Nodup
      decide
    · obtain ⟨driver, hd, rfl⟩ := List.mem_map.mp hdriver
      show ((driver.operations.map _).map _).Nodup
      rw [List.map_map]
      exact names_nodup hcompiles hd

end Published

/-! ## The server -/

section Server

variable {cppHeader : CppHeader} {driversList : List Str} {drivers : List Driver}
  {types : Operation → List ArgType} {gets : Fin drivers.length → List (Fin drivers.length)}
  {hpos : 0 < drivers.length} {driver : Driver} {op : Operation}

theorem signature_eq (h : getDrivers cppHeader driversList = some drivers) (hd : driver ∈ drivers)
    (hop : op ∈ driver.operations) :
    (config types gets hpos).signature driver.id op.id = some (types op) := by
  obtain ⟨i, hi, rfl⟩ := List.getElem_of_mem hd
  obtain ⟨o, ho, rfl⟩ := List.getElem_of_mem hop
  have hid := driver_id_eq h (List.getElem?_eq_getElem hi)
  rw [Drivers.operation_id_eq h hd (List.getElem?_eq_getElem ho), hid, Config.signature,
    if_neg (by omega), if_neg (by omega)]
  have hget : (drivers[i].operations.map types)[o]? = some (types drivers[i].operations[o]) := by
    rw [List.getElem?_map, List.getElem?_eq_getElem ho, Option.map_some]
  have hindex : i + 2 - 2 < (config types gets hpos).n := hi
  rw [dif_pos hindex]
  exact hget

theorem runs_of_mem (h : getDrivers cppHeader driversList = some drivers)
    (hcompiles : Compiles drivers) (hfiles : (driversList.map file).Nodup) (hd : driver ∈ drivers)
    (hop : op ∈ driver.operations) :
    Runs cppHeader driversList types gets hpos driver op driver.id op.id := by
  refine ⟨rfl, rfl, fun m ids hm hdriver hoperation => ?_, ?_⟩
  · have hlt : ids.1.toNat < (config types gets hpos).deviceNum := by
      obtain ⟨i, hi, rfl⟩ := List.getElem_of_mem hd
      rw [hdriver, driver_id_eq h (List.getElem?_eq_getElem hi)]
      exact Nat.add_lt_add_right hi 2
    have htable : (config types gets hpos).table ids.1 ids.2 = some (types op) := by
      rw [Config.table, hdriver, hoperation]
      exact signature_eq h hd hop
    rw [DriverManager.execute_eq hm.ready ids hlt, htable, hdriver, hoperation]
  · obtain ⟨interface, hrender, hselect⟩ :=
      Drivers.select_renderDriver h hcompiles hfiles hd
    refine ⟨interface, hrender, ?_⟩
    obtain ⟨o, ho, rfl⟩ := List.getElem_of_mem hop
    have hget := List.getElem?_eq_getElem ho
    rw [hselect, Drivers.operation_id_eq h hd hget, hget, Option.map_some]

end Server

/-! ## Round trip -/

/-- The two numbers, the arguments and the type that the client finds for the
names of a method are those under which the server runs this method, and the
client finds none for other names. -/
theorem names_run {cppHeader : CppHeader} {driversList : List Str} {drivers : List Driver}
    (h : getDrivers cppHeader driversList = some drivers) (hcompiles : Compiles drivers)
    (hfiles : (driversList.map file).Nodup) (hserver : ∀ d ∈ drivers, d.name ≠ kServer.className)
    (fillType : Str → Str) (types : Operation → List ArgType)
    (gets : Fin drivers.length → List (Fin drivers.length)) (hpos : 0 < drivers.length) :
    ∃ client, loadDevices (publish fillType drivers) = some client ∧
      ∀ device cmd, device ≠ kServer.className → ∀ d o args,
        getIds client device cmd = some (d, o, args) ↔
          ∃ driver ∈ drivers, ∃ op ∈ driver.operations, driver.name = device ∧ op.name = cmd ∧
            Runs cppHeader driversList types gets hpos driver op d o ∧
            (publishedFunction fillType driver op).args = args ∧
            getRetType client device cmd = some (publishedFunction fillType driver op).retType := by
  obtain ⟨client, hclient, -⟩ := loadDevices_eq (publish_numbered h fillType)
  obtain ⟨hids, hclasses, hnames⟩ := publish_nodup h hcompiles hserver fillType
  have hmem {driver : Driver} (hd : driver ∈ drivers) :
      publishedEntry fillType driver ∈ publish fillType drivers := by
    rw [publish_eq]
    exact List.mem_append_right _ (List.mem_map_of_mem hd)
  refine ⟨client, hclient, fun device cmd hdevice d o args => ?_⟩
  rw [getIds_eq_some_iff hclient hids hclasses hnames]
  constructor
  · rintro ⟨e, he, f, hf, rfl, rfl, rfl, rfl, rfl⟩
    rw [publish_eq] at he
    obtain hown | hdriver := List.mem_append.mp he
    · rw [List.mem_singleton.mp hown] at hdevice
      exact absurd rfl hdevice
    · obtain ⟨driver, hd, rfl⟩ := List.mem_map.mp hdriver
      obtain ⟨op, hop, rfl⟩ := List.mem_map.mp hf
      exact ⟨driver, hd, op, hop, rfl, rfl, runs_of_mem h hcompiles hfiles hd hop, rfl,
        getRetType_of_mem hclient hids hclasses hnames (hmem hd) (List.mem_map_of_mem hop)⟩
  · rintro ⟨driver, hd, op, hop, rfl, rfl, hruns, rfl, -⟩
    exact ⟨publishedEntry fillType driver, hmem hd, publishedFunction fillType driver op,
      List.mem_map_of_mem hop, rfl, hruns.driverId, rfl, hruns.operationId, rfl⟩

/-! ## A driver with two methods -/

def ledHeader : CppHeader := fun _ =>
  some [⟨"Led".toList, [⟨"Led".toList, false, "void".toList, []⟩,
    ⟨"set".toList, false, "void".toList, [⟨"value".toList, "uint32_t".toList⟩]⟩,
    ⟨"get".toList, false, "uint32_t".toList, []⟩]⟩]

def ledDriver : Driver where
  path := "led.hpp".toList
  id := 2
  name := "Led".toList
  operations :=
    [⟨"set".toList, 0, "void".toList, [⟨"value".toList, "uint32_t".toList, false, false⟩],
      [⟨"value".toList, "uint32_t".toList⟩]⟩,
      ⟨"get".toList, 1, "uint32_t".toList, [], []⟩]

theorem ledDriver_compiles : Compiles [ledDriver] where
  classes := by decide
  tags := by decide

theorem ledDriver_runs :
    ∃ client, loadDevices (publish id [ledDriver]) = some client ∧
      ∀ device cmd, device ≠ kServer.className → ∀ d o args,
        getIds client device cmd = some (d, o, args) ↔
          ∃ driver ∈ [ledDriver], ∃ op ∈ driver.operations, driver.name = device ∧ op.name = cmd ∧
            @Runs [ledDriver] ledHeader ["led.hpp".toList]
              (fun op => op.arguments.map fun _ => .scalar .uint32) (fun _ => []) Nat.one_pos
              driver op d o ∧
            (publishedFunction id driver op).args = args ∧
            getRetType client device cmd = some (publishedFunction id driver op).retType :=
  names_run (by decide) ledDriver_compiles (by decide) (by decide) id _ _ _

end Cli
