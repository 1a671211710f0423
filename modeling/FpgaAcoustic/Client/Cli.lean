-- SUMMARY: The tables that the Python client makes of the published list, and the entry that the command line prints for a device.
import Mathlib.Logic.Function.Basic
import FpgaAcoustic.Build.Drivers

/-!
# Command line

The published list begins with the server itself, which has number 1, so each
entry stands one position before its number. The tables of the client have room
for all numbers and are indexed by them. The command line indexes the list
itself by a number.
-/

namespace Cli

open RegisterMap (Str)
open Drivers (Entry Function Parameter Driver CppHeader getDrivers getJson driverEntry kServer)

/-! ## The published list -/

/-- What comes out of the text of `get_json`: the server fills in types, and the
rest is as it was. -/
def publish (fillType : Str → Str) (drivers : List Driver) : List Entry :=
  (getJson drivers).map fun entry =>
    { entry with
      functions := entry.functions.map fun function =>
        { function with
          retType := fillType function.retType
          args := function.args.map fun arg => { arg with type := fillType arg.type } } }

/-! ## The client -/

/-- A dictionary. -/
abbrev Dict (α : Type) := Str → Option α

def Dict.empty {α : Type} : Dict α := fun _ => none

def Dict.set {α : Type} (d : Dict α) (key : Str) (value : α) : Dict α :=
  Function.update d key (some value)

/-- An assignment to an item of a list; none for an `IndexError`. -/
def setItem {α : Type} (items : List α) (index : ℕ) (value : α) : Option (List α) :=
  if index < items.length then some (items.set index value) else none

structure Client where
  commands : List Entry
  devicesIdx : Dict ℕ
  cmdsIdxList : List (Option (Dict ℕ))
  cmdsArgsList : List (Option (Dict (List Parameter)))
  cmdsRetTypesList : List (Option (Dict Str))

/-- The pass of the loop for one device. -/
def loadDevice (client : Client) (device : Entry) : Option Client := do
  let cmdsIdx := device.functions.foldl (fun d cmd => d.set cmd.name cmd.id) Dict.empty
  let cmdsArgs := device.functions.foldl (fun d cmd => d.set cmd.name cmd.args) Dict.empty
  let cmdsRetType := device.functions.foldl (fun d cmd => d.set cmd.name cmd.retType) Dict.empty
  let cmdsIdxList ← setItem client.cmdsIdxList device.id (some cmdsIdx)
  let cmdsArgsList ← setItem client.cmdsArgsList device.id (some cmdsArgs)
  let cmdsRetTypesList ← setItem client.cmdsRetTypesList device.id (some cmdsRetType)
  pure ⟨client.commands, client.devicesIdx.set device.className device.id, cmdsIdxList,
    cmdsArgsList, cmdsRetTypesList⟩

/-- The client before the loop. -/
def received (commands : List Entry) : Client where
  commands := commands
  devicesIdx := Dict.empty
  cmdsIdxList := List.replicate (2 + commands.length) none
  cmdsArgsList := List.replicate (2 + commands.length) none
  cmdsRetTypesList := List.replicate (2 + commands.length) none

def loadDevices (commands : List Entry) : Option Client :=
  commands.foldlM loadDevice (received commands)

/-- What `commands` prints. -/
inductive Printed
  | all (commands : List Entry)
  | one (entry : Entry)
  deriving DecidableEq, Repr

/-- None for a `KeyError` or an `IndexError`. -/
def commands (client : Client) : Option Str → Option Printed
  | none => some (.all client.commands)
  | some device => do
    let deviceIdx ← client.devicesIdx device
    let entry ← client.commands[deviceIdx]?
    pure (.one entry)

/-! ## Specification -/

/-- The entry printed for a device is one with its name. -/
def Lists (client : Client) (device : Str) : Prop :=
  ∃ entry, commands client (some device) = some (.one entry) ∧ entry.className = device

/-! ## The numbers -/

/-- The entries are numbered from one on. -/
def Numbered (entries : List Entry) : Prop :=
  entries.map (·.id) = List.range' 1 entries.length

theorem Numbered.id_eq {entries : List Entry} (h : Numbered entries) {i : ℕ} {e : Entry}
    (hget : entries[i]? = some e) : e.id = i + 1 := by
  obtain ⟨hi, -⟩ := List.getElem?_eq_some_iff.mp hget
  have hid : (entries.map (·.id))[i]? = some e.id := by
    rw [List.getElem?_map, hget]
    rfl
  rw [h, List.getElem?_range' hi, Option.some.injEq] at hid
  omega

theorem publish_numbered {cppHeader : CppHeader} {driversList : List Str} {drivers : List Driver}
    (h : getDrivers cppHeader driversList = some drivers) (fillType : Str → Str) :
    Numbered (publish fillType drivers) := by
  have hdrivers : drivers.map (·.id) = List.range' 2 drivers.length := by
    have hmap := congrArg (List.map Prod.snd) (Drivers.getDrivers_eq h).2
    rw [List.map_map, List.zipIdx_map_snd] at hmap
    have hlen := congrArg List.length hmap
    rw [List.length_map, List.length_range'] at hlen
    rw [hlen]
    exact hmap
  have hids : (publish fillType drivers).map (·.id) = (getJson drivers).map (·.id) := by
    rw [publish, List.map_map]
    rfl
  have hentries : (getJson drivers).map (·.id) = 1 :: drivers.map (·.id) := by
    rw [getJson, List.map_cons, List.map_map]
    rfl
  have hlen : (publish fillType drivers).length = drivers.length + 1 := by
    rw [publish, List.length_map, getJson, List.length_cons, List.length_map]
  rw [Numbered, hids, hentries, hdrivers, hlen, List.range'_succ]

/-! ## The tables -/

/-- The tables have a place for each number below `n`. -/
structure Room (n : ℕ) (client : Client) : Prop where
  cmdsIdxList : client.cmdsIdxList.length = n
  cmdsArgsList : client.cmdsArgsList.length = n
  cmdsRetTypesList : client.cmdsRetTypesList.length = n

section Load

variable {client : Client} {entries : List Entry} {n : ℕ}

theorem setItem_of_lt {α : Type} {items : List α} {index : ℕ} (h : index < items.length) (value : α) :
    ∃ items', setItem items index value = some items' ∧ items'.length = items.length :=
  ⟨_, if_pos h, List.length_set⟩

theorem loadDevice_of_room (hroom : Room n client) {device : Entry} (h : device.id < n) :
    ∃ next, loadDevice client device = some next ∧ Room n next ∧
      next.commands = client.commands ∧
      next.devicesIdx = client.devicesIdx.set device.className device.id := by
  obtain ⟨hidx, hargs, hret⟩ := hroom
  obtain ⟨cmdsIdxList, hset, hlen⟩ := setItem_of_lt (hidx ▸ h)
    (some (device.functions.foldl (fun d cmd => d.set cmd.name cmd.id) Dict.empty))
  obtain ⟨cmdsArgsList, hset', hlen'⟩ := setItem_of_lt (hargs ▸ h)
    (some (device.functions.foldl (fun d cmd => d.set cmd.name cmd.args) Dict.empty))
  obtain ⟨cmdsRetTypesList, hset'', hlen''⟩ := setItem_of_lt (hret ▸ h)
    (some (device.functions.foldl (fun d cmd => d.set cmd.name cmd.retType) Dict.empty))
  refine ⟨⟨client.commands, client.devicesIdx.set device.className device.id, cmdsIdxList,
    cmdsArgsList, cmdsRetTypesList⟩, ?_, ⟨hlen.trans hidx, hlen'.trans hargs, hlen''.trans hret⟩,
    rfl, rfl⟩
  simp only [loadDevice, hset, hset', hset'', Option.bind_eq_bind, Option.bind_some, Option.pure_def]

/-- After the loop a name has the number of the last entry with it. -/
structure Loaded (entries : List Entry) (before client : Client) : Prop where
  commands : client.commands = before.commands
  last : ∀ pre e post, entries = pre ++ e :: post → (∀ x ∈ post, x.className ≠ e.className) →
    client.devicesIdx e.className = some e.id
  other : ∀ name, (∀ x ∈ entries, x.className ≠ name) →
    client.devicesIdx name = before.devicesIdx name

theorem foldlM_loadDevice (hroom : Room n client) (h : ∀ e ∈ entries, e.id < n) :
    ∃ final, entries.foldlM loadDevice client = some final ∧ Loaded entries client final := by
  induction entries generalizing client with
  | nil =>
    refine ⟨client, rfl, rfl, fun pre e post heq => ?_, fun _ _ => rfl⟩
    exact absurd heq (by simp)
  | cons device rest ih =>
    obtain ⟨next, hnext, hroom', hcommands, hidx⟩ :=
      loadDevice_of_room hroom (h device List.mem_cons_self)
    obtain ⟨final, hfinal, hloaded⟩ :=
      ih hroom' fun e he => h e (List.mem_cons_of_mem device he)
    refine ⟨final, ?_, hloaded.commands.trans hcommands, ?_, ?_⟩
    · rw [List.foldlM_cons, hnext]
      exact hfinal
    · intro pre e post heq hpost
      cases pre with
      | nil =>
        obtain ⟨rfl, rfl⟩ := List.cons.inj heq
        rw [hloaded.other _ hpost, hidx, Dict.set, Function.update_self]
      | cons x pre =>
        exact hloaded.last pre e post (List.cons.inj heq).2 hpost
    · intro name hne
      rw [hloaded.other name fun x hx => hne x (List.mem_cons_of_mem device hx), hidx, Dict.set]
      exact Function.update_of_ne (hne device List.mem_cons_self).symm _ _

theorem received_room (entries : List Entry) : Room (2 + entries.length) (received entries) :=
  ⟨List.length_replicate, List.length_replicate, List.length_replicate⟩

theorem loadDevices_eq (h : Numbered entries) :
    ∃ client, loadDevices entries = some client ∧ Loaded entries (received entries) client := by
  refine foldlM_loadDevice (received_room entries) fun e he => ?_
  obtain ⟨i, hget⟩ := List.mem_iff_getElem?.mp he
  obtain ⟨hi, -⟩ := List.getElem?_eq_some_iff.mp hget
  rw [h.id_eq hget]
  omega

end Load

/-! ## The entry printed -/

/-- A name in a list has a last entry. -/
theorem exists_last {entries : List Entry} {name : Str} (h : name ∈ entries.map (·.className)) :
    ∃ pre e post, entries = pre ++ e :: post ∧ e.className = name ∧
      ∀ x ∈ post, x.className ≠ name := by
  induction entries with
  | nil => exact absurd h List.not_mem_nil
  | cons device rest ih =>
    by_cases hrest : name ∈ rest.map (·.className)
    · obtain ⟨pre, e, post, rfl, hname, hpost⟩ := ih hrest
      exact ⟨device :: pre, e, post, rfl, hname, hpost⟩
    · have hname : device.className = name := by
        rcases List.mem_cons.mp h with heq | hmem
        · exact heq.symm
        · exact absurd hmem hrest
      refine ⟨[], device, rest, rfl, hname, fun x hx hx' => ?_⟩
      exact hrest (List.mem_map.mpr ⟨x, hx, hx'⟩)

/-- What is printed for a name is the entry after the last one with this name. -/
theorem commands_eq {entries pre post : List Entry} {e : Entry} {client : Client}
    (h : Numbered entries) (hloaded : Loaded entries (received entries) client)
    (hsplit : entries = pre ++ e :: post) (hpost : ∀ x ∈ post, x.className ≠ e.className) :
    commands client (some e.className) = post.head?.map .one := by
  have hid : e.id = pre.length + 1 := by
    refine h.id_eq ?_
    rw [hsplit]
    simp
  have hnext : entries[pre.length + 1]? = post.head? := by
    have hpos : (pre ++ e :: post)[pre.length + 1]? = (e :: post)[1]? := by
      rw [List.getElem?_append_right (Nat.le_add_right _ 1), Nat.add_sub_cancel_left]
    rw [hsplit, hpos, List.getElem?_cons_succ, List.head?_eq_getElem?]
  have hidx := hloaded.last pre e post hsplit hpost
  have hcommands : client.commands = entries := hloaded.commands
  simp only [commands, hidx, hcommands, hid, hnext, Option.bind_eq_bind, Option.bind_some,
    Option.pure_def]
  cases post.head? <;> rfl

/-- For no list of drivers, and for no name in what is published of it, is the
entry printed one with this name. -/
theorem not_lists {cppHeader : CppHeader} {driversList : List Str} {drivers : List Driver}
    (h : getDrivers cppHeader driversList = some drivers) (fillType : Str → Str) :
    ∃ client, loadDevices (publish fillType drivers) = some client ∧
      ∀ name ∈ (publish fillType drivers).map (·.className), ¬ Lists client name := by
  have hnumbered := publish_numbered h fillType
  obtain ⟨client, hclient, hloaded⟩ := loadDevices_eq hnumbered
  refine ⟨client, hclient, fun name hname => ?_⟩
  rintro ⟨entry, hprinted, hentry⟩
  obtain ⟨pre, e, post, hsplit, rfl, hpost⟩ := exists_last hname
  rw [commands_eq hnumbered hloaded hsplit hpost, Option.map_eq_some_iff] at hprinted
  obtain ⟨next, hnext, heq⟩ := hprinted
  cases heq
  exact hpost entry (List.mem_of_head? hnext) hentry

/-! ## Two drivers -/

def twoHeaders : CppHeader := fun path =>
  if path == "./a/dma.hpp".toList then some [⟨"Dma".toList, []⟩] else some [⟨"Common".toList, []⟩]

def twoDrivers : List Driver :=
  [⟨"a/common.hpp".toList, 2, "Common".toList, []⟩, ⟨"a/dma.hpp".toList, 3, "Dma".toList, []⟩]

theorem twoDrivers_eq :
    getDrivers twoHeaders ["a/common.hpp".toList, "a/dma.hpp".toList] = some twoDrivers := by
  decide

theorem twoDrivers_not_lists :
    ∃ client, loadDevices (publish id twoDrivers) = some client ∧
      ∀ name ∈ (publish id twoDrivers).map (·.className), ¬ Lists client name :=
  not_lists twoDrivers_eq id

/-- For the first driver the entry of the second is printed, and for the second
there is an `IndexError`. -/
theorem twoDrivers_printed :
    (loadDevices (publish id twoDrivers)).bind (commands · (some "Common".toList)) =
        some (.one ⟨"Dma".toList, 3, []⟩) ∧
      (loadDevices (publish id twoDrivers)).bind (commands · (some "Dma".toList)) = none ∧
      ¬ ∃ client, loadDevices (publish id twoDrivers) = some client ∧
        Lists client "Common".toList := by
  have hcommon : (loadDevices (publish id twoDrivers)).bind (commands · (some "Common".toList)) =
      some (.one ⟨"Dma".toList, 3, []⟩) := by
    decide
  refine ⟨hcommon, by decide, ?_⟩
  rintro ⟨client, hclient, entry, hprinted, hname⟩
  rw [hclient, Option.bind_some, hprinted, Option.some.injEq, Printed.one.injEq] at hcommon
  rw [hcommon] at hname
  revert hname
  decide

end Cli
