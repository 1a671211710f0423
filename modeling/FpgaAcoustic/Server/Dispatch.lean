-- SUMMARY: The driver manager: how it starts drivers on demand, and to which operation of which driver it dispatches a command.
import Mathlib.Data.Fintype.Card
import FpgaAcoustic.Server.Operation

/-!
# Dispatch

Drivers are started when the first command for them arrives, or when the
constructor of another driver asks for them. The templates that go through the
drivers end in a case without a test. The ids of a command are checked by an
`assert` only, which is compiled out.
-/

namespace Koheron

/-! ## Drivers -/

/-- A driver of the configuration: what its operations take, by their ids, and
the drivers that its constructor gets from the context. -/
structure DriverClass (n : ℕ) where
  operations : List (List ArgType)
  gets : List (Fin n)

/-- The drivers after `NoDriver` and `Server`. -/
structure Config where
  n : ℕ
  driver : Fin n → DriverClass n
  -- The templates over the drivers have no instance without any.
  pos : 0 < n

/-- `driver_id_of`. -/
def driverId {n : ℕ} (d : Fin n) : ℕ := d + 2

/-- `device_num`. -/
def Config.deviceNum (cfg : Config) : ℕ := cfg.n + 2

/-- `GET_VERSION` and `GET_CMDS`. -/
def serverOperations : List (List ArgType) := [[], []]

/-- The operations that a client can ask for. -/
def Config.signature (cfg : Config) (driver operation : ℕ) : Option (List ArgType) :=
  if driver = 0 then none
  else if driver = 1 then serverOperations[operation]?
  else if h : driver - 2 < cfg.n then (cfg.driver ⟨driver - 2, h⟩).operations[operation]?
  else none

def Config.table (cfg : Config) : Table := fun driver operation =>
  cfg.signature driver.toNat operation.toNat

/-- The arrays of the manager and of its container have `device_num - 2` entries. -/
structure DriverManager (n : ℕ) where
  isStarted : Fin n → Bool
  /-- The `type` of each device, and none for a null pointer. -/
  deviceList : Fin n → Option ℕ
  containerStarted : Fin n → Bool
  containerStarting : Fin n → Bool
  exitAll : Bool

namespace DriverManager

def initial (n : ℕ) : DriverManager n where
  isStarted _ := false
  deviceList _ := none
  containerStarted _ := false
  containerStarting _ := false
  exitAll := false

section Start

variable {n : ℕ}

def setStarting (m : DriverManager n) (d : Fin n) (starting : Bool) : DriverManager n :=
  { m with containerStarting := Function.update m.containerStarting d starting }

def setStarted (m : DriverManager n) (d : Fin n) : DriverManager n :=
  { m with
    isStarted := Function.update m.isStarted d true
    deviceList := Function.update m.deviceList d (some (driverId d))
    containerStarted := Function.update m.containerStarted d true }

/-- What a constructor does: it gets the drivers that it needs. -/
def construct (alloc : Fin n → DriverManager n → DriverManager n) (needed : List (Fin n))
    (m : DriverManager n) : DriverManager n :=
  needed.foldl (fun m d => if m.isStarted d then m else alloc d m) m

/-- `alloc_driver`, with `DriverContainer::alloc` in it. The constructors of
drivers that get one another call it again, to some depth. -/
def allocDriver (gets : Fin n → List (Fin n)) : ℕ → Fin n → DriverManager n → DriverManager n
  | 0, _, m => m
  | depth + 1, d, m =>
    if m.isStarted d then m
    else if m.containerStarted d then m.setStarted d
    -- A circular dependency.
    else if m.containerStarting d then { m with exitAll := true }
    else
      let m := construct (allocDriver gets depth) (gets d) (m.setStarting d true)
      (m.setStarting d false).setStarted d

/-- `start_impl`, for the drivers `dev0, drivers...`. -/
def startImpl (alloc : Fin n → DriverManager n → DriverManager n) (driver : ℕ) (dev0 : Fin n) :
    List (Fin n) → DriverManager n → DriverManager n
  | [], m => alloc dev0 m
  | dev :: drivers, m =>
    if driver = driverId dev0 then alloc dev0 m else startImpl alloc driver dev drivers m

/-- `execute_driver_implementation`: the driver of which `execute` is called. -/
def executeDriverImplementation (type : ℕ) (dev0 : Fin n) : List (Fin n) → Fin n
  | [] => dev0
  | dev :: drivers =>
    if type = driverId dev0 then dev0 else executeDriverImplementation type dev drivers

end Start

/-! ## Execution -/

/-- What comes of a command. -/
inductive Outcome
  | outOfBounds (index : ℕ)
  | nullDevice
  | returned (err : ℤ)
  | operation (driver operation : ℕ) (args : List ArgType)
  deriving DecidableEq, Repr

/-- The `switch` over the operations of a driver. -/
def switch (driver : ℕ) (operations : List (List ArgType)) (operation : ℕ) : Outcome :=
  match operations[operation]? with
  | some args => .operation driver operation args
  | none => .returned (-1)

variable (cfg : Config)

/-- No more constructors are nested than there are drivers. -/
def alloc (d : Fin cfg.n) (m : DriverManager cfg.n) : DriverManager cfg.n :=
  allocDriver (fun d => (cfg.driver d).gets) (cfg.n + 1) d m

/-- `get`. -/
def get (d : Fin cfg.n) (m : DriverManager cfg.n) : DriverManager cfg.n :=
  if m.isStarted d then m else alloc cfg d m

def drivers : List (Fin cfg.n) := (List.finRange cfg.n).tail

def start (driver : ℕ) (m : DriverManager cfg.n) : DriverManager cfg.n :=
  startImpl (alloc cfg) driver ⟨0, cfg.pos⟩ (drivers cfg) m

/-- `execute_driver`. -/
def executeDriver (type operation : ℕ) : Outcome :=
  let d := executeDriverImplementation type ⟨0, cfg.pos⟩ (drivers cfg)
  switch (driverId d) (cfg.driver d).operations operation

/-- `execute`, in a build without assertions. -/
def execute (ids : BitVec 16 × BitVec 16) (m : DriverManager cfg.n) :
    Outcome × DriverManager cfg.n :=
  let driver := ids.1.toNat
  let operation := ids.2.toNat
  if driver = 0 then (.returned 0, m)
  else if driver = 1 then (switch 1 serverOperations operation, m)
  else if h : driver - 2 < cfg.n then
    let m := if m.isStarted ⟨driver - 2, h⟩ then m else start cfg driver m
    match m.deviceList ⟨driver - 2, h⟩ with
    | none => (.nullDevice, m)
    | some type => (executeDriver cfg type operation, m)
  else (.outOfBounds (driver - 2), m)

/-- The states between two commands. -/
inductive Reachable : DriverManager cfg.n → Prop
  | initial : Reachable (initial cfg.n)
  | get {m} (d : Fin cfg.n) : Reachable m → Reachable (get cfg d m)
  | execute {m} (ids : BitVec 16 × BitVec 16) : Reachable m → Reachable (execute cfg ids m).2

/-! ## Starting a driver -/

section Start

variable {n : ℕ} {m : DriverManager n} {gets : Fin n → List (Fin n)}

/-- A driver that is started has its device. -/
structure Consistent (m : DriverManager n) : Prop where
  device : ∀ d, m.isStarted d = true → m.deviceList d = some (driverId d)
  container : m.containerStarted = m.isStarted

/-- No constructor is running. -/
structure Ready (m : DriverManager n) : Prop extends Consistent m where
  idle : ∀ d, m.containerStarting d = false

@[simp] theorem containerStarting_setStarting (m : DriverManager n) (d : Fin n)
    (starting : Bool) :
    (m.setStarting d starting).containerStarting =
      Function.update m.containerStarting d starting := rfl

@[simp] theorem isStarted_setStarted (m : DriverManager n) (d : Fin n) :
    (m.setStarted d).isStarted = Function.update m.isStarted d true := rfl

@[simp] theorem deviceList_setStarted (m : DriverManager n) (d : Fin n) :
    (m.setStarted d).deviceList = Function.update m.deviceList d (some (driverId d)) := rfl

@[simp] theorem containerStarting_setStarted (m : DriverManager n) (d : Fin n) :
    (m.setStarted d).containerStarting = m.containerStarting := rfl

theorem ready_initial : (initial n).Ready where
  device _ h := absurd h Bool.false_ne_true
  container := rfl
  idle _ := rfl

theorem Consistent.setStarting (h : m.Consistent) (d : Fin n) (starting : Bool) :
    (m.setStarting d starting).Consistent :=
  ⟨h.device, h.container⟩

theorem Consistent.setStarted (h : m.Consistent) (d : Fin n) : (m.setStarted d).Consistent where
  device e he := by
    rcases eq_or_ne e d with rfl | hne
    · exact Function.update_self ..
    · simp only [DriverManager.setStarted, Function.update_of_ne hne] at he ⊢
      exact h.device e he
  container := by simp only [DriverManager.setStarted, h.container]

/-- What every start of a driver keeps, a constructor keeps. -/
theorem construct_invariant {alloc : Fin n → DriverManager n → DriverManager n}
    {P : DriverManager n → Prop} (halloc : ∀ d m, P m → P (alloc d m)) (needed : List (Fin n))
    (h : P m) : P (construct alloc needed m) := by
  refine List.foldlRecOn (motive := P) needed _ h ?_
  intro m' hm' d _
  split
  · exact hm'
  · exact halloc d m' hm'

theorem construct_congr {alloc alloc' : Fin n → DriverManager n → DriverManager n}
    {P : DriverManager n → Prop} (halloc : ∀ d m, P m → P (alloc d m))
    (heq : ∀ d m, P m → alloc d m = alloc' d m) (needed : List (Fin n)) (h : P m) :
    construct alloc needed m = construct alloc' needed m := by
  induction needed generalizing m with
  | nil => rfl
  | cons d needed ih =>
    show construct alloc needed (if m.isStarted d then m else alloc d m) =
      construct alloc' needed (if m.isStarted d then m else alloc' d m)
    rw [← heq d m h]
    apply ih
    split
    · exact h
    · exact halloc d m h

/-- What the start of a driver leaves as it was. -/
theorem allocDriver_consistent (depth : ℕ) (d : Fin n) (h : m.Consistent) :
    (allocDriver gets depth d m).Consistent ∧
      (allocDriver gets depth d m).containerStarting = m.containerStarting := by
  induction depth generalizing d m with
  | zero => exact ⟨h, rfl⟩
  | succ depth ih =>
    unfold allocDriver
    split_ifs with hstarted hcontainer hstarting
    · exact ⟨h, rfl⟩
    · exact ⟨h.setStarted d, rfl⟩
    · exact ⟨⟨h.device, h.container⟩, rfl⟩
    · obtain ⟨hconsistent, hsame⟩ := @construct_invariant n (m.setStarting d true)
        (allocDriver gets depth)
        (fun m' => m'.Consistent ∧
          m'.containerStarting = (m.setStarting d true).containerStarting)
        (fun e m' hm' => ⟨(ih e hm'.1).1, (ih e hm'.1).2.trans hm'.2⟩) (gets d)
        ⟨h.setStarting d true, rfl⟩
      refine ⟨(hconsistent.setStarting d false).setStarted d, ?_⟩
      have hfalse : m.containerStarting d = false := Bool.not_eq_true _ ▸ hstarting
      rw [containerStarting_setStarted, containerStarting_setStarting, hsame,
        containerStarting_setStarting, Function.update_idem, ← hfalse, Function.update_eq_self]

/-- A driver that is not being started already is started. -/
theorem isStarted_allocDriver (depth : ℕ) {d : Fin n} (h : m.containerStarting d = false) :
    (allocDriver gets (depth + 1) d m).isStarted d = true := by
  unfold allocDriver
  split_ifs with hstarted hcontainer hstarting
  · exact hstarted
  · exact Function.update_self ..
  · exact absurd hstarting (by rw [h]; exact Bool.false_ne_true)
  · exact Function.update_self ..

/-- The drivers of which no constructor is running. -/
def unstarted (m : DriverManager n) : Finset (Fin n) :=
  Finset.univ.filter fun d => m.containerStarting d = false

theorem card_unstarted_lt {d : Fin n} (h : m.containerStarting d = false) :
    (m.setStarting d true).unstarted.card < m.unstarted.card := by
  refine Finset.card_lt_card ((Finset.ssubset_iff_of_subset ?_).mpr
    ⟨d, Finset.mem_filter.mpr ⟨Finset.mem_univ d, h⟩, ?_⟩)
  · intro e he
    refine Finset.mem_filter.mpr ⟨Finset.mem_univ e, ?_⟩
    have hfalse := (Finset.mem_filter.mp he).2
    rcases eq_or_ne e d with rfl | hne
    · exact h
    · rwa [containerStarting_setStarting, Function.update_of_ne hne] at hfalse
  · intro hd
    have hfalse := (Finset.mem_filter.mp hd).2
    rw [containerStarting_setStarting, Function.update_self] at hfalse
    exact Bool.false_ne_true hfalse.symm

/-- Once the depth exceeds the number of drivers that could be started, it does
not matter. -/
theorem allocDriver_depth {depth depth' : ℕ} (d : Fin n) (h : m.Consistent)
    (hdepth : m.unstarted.card < depth) (hdepth' : m.unstarted.card < depth') :
    allocDriver gets depth d m = allocDriver gets depth' d m := by
  induction depth generalizing depth' d m with
  | zero => omega
  | succ depth ih =>
    obtain ⟨depth', rfl⟩ := Nat.exists_eq_add_one_of_ne_zero (Nat.ne_zero_of_lt hdepth')
    unfold allocDriver
    split_ifs with hstarted hcontainer hstarting
    · rfl
    · rfl
    · rfl
    · have hfalse : m.containerStarting d = false := Bool.not_eq_true _ ▸ hstarting
      have hfewer := card_unstarted_lt hfalse
      have hsame : construct (allocDriver gets depth) (gets d) (m.setStarting d true) =
          construct (allocDriver gets depth') (gets d) (m.setStarting d true) := by
        apply construct_congr (P := fun m' => m'.Consistent ∧
          m'.containerStarting = (m.setStarting d true).containerStarting)
        · intro e m' hm'
          obtain ⟨hconsistent, hkept⟩ := allocDriver_consistent depth e hm'.1
          exact ⟨hconsistent, hkept.trans hm'.2⟩
        · intro e m' hm'
          have hcard : m'.unstarted = (m.setStarting d true).unstarted := by
            simp only [unstarted, hm'.2]
          apply ih e hm'.1
          · rw [hcard]; omega
          · rw [hcard]; omega
        · exact ⟨h.setStarting d true, rfl⟩
      simp only [hsame]

end Start

/-! ## Going through the drivers -/

section Dispatch

variable {cfg : Config} {m : DriverManager cfg.n}

theorem driverId_injective {n : ℕ} : Function.Injective (@driverId n) := by
  intro d e h
  unfold driverId at h
  exact Fin.ext (by omega)

theorem mem_drivers (d : Fin cfg.n) : d ∈ ⟨0, cfg.pos⟩ :: drivers cfg := by
  have hmem := List.mem_finRange d
  have hlen : 0 < (List.finRange cfg.n).length := by
    rw [List.length_finRange]
    exact cfg.pos
  have hcons : (List.finRange cfg.n)[0] :: (List.finRange cfg.n).tail = List.finRange cfg.n := by
    rw [← List.head_eq_getElem_zero (List.ne_nil_of_length_pos hlen)]
    exact List.cons_head_tail ..
  rw [← hcons, List.getElem_finRange] at hmem
  exact hmem

/-- What goes through the drivers until it finds the identifier finds the driver. -/
theorem walk_eq {n : ℕ} {β : Type} {walk : Fin n → List (Fin n) → β} {found : Fin n → β}
    {d dev0 : Fin n} {drivers : List (Fin n)} (hlast : ∀ dev, walk dev [] = found dev)
    (hnext : ∀ dev dev' drivers, walk dev (dev' :: drivers) =
      if driverId d = driverId dev then found dev else walk dev' drivers)
    (h : d ∈ dev0 :: drivers) : walk dev0 drivers = found d := by
  induction drivers generalizing dev0 with
  | nil => rw [List.mem_singleton.mp h, hlast]
  | cons dev drivers ih =>
    rw [hnext]
    split_ifs with heq
    · rw [driverId_injective heq]
    · have hd : d ≠ dev0 := fun hsame => heq (congrArg driverId hsame)
      exact ih (List.mem_of_ne_of_mem hd h)

theorem startImpl_eq {n : ℕ} {alloc : Fin n → DriverManager n → DriverManager n} {d dev0 : Fin n}
    {drivers : List (Fin n)} (h : d ∈ dev0 :: drivers) (m : DriverManager n) :
    startImpl alloc (driverId d) dev0 drivers m = alloc d m :=
  @walk_eq n _ (fun dev drivers => startImpl alloc (driverId d) dev drivers m) (alloc · m) d _ _
    (fun _ => rfl) (fun _ _ _ => rfl) h

theorem executeDriverImplementation_eq {n : ℕ} {d dev0 : Fin n} {drivers : List (Fin n)}
    (h : d ∈ dev0 :: drivers) : executeDriverImplementation (driverId d) dev0 drivers = d :=
  @walk_eq n _ (executeDriverImplementation (driverId d)) id d _ _ (fun _ => rfl)
    (fun _ _ _ => rfl) h

theorem start_eq (d : Fin cfg.n) : start cfg (driverId d) m = alloc cfg d m :=
  startImpl_eq (mem_drivers d) m

theorem executeDriver_eq (d : Fin cfg.n) (operation : ℕ) :
    executeDriver cfg (driverId d) operation =
      switch (driverId d) (cfg.driver d).operations operation := by
  rw [executeDriver, executeDriverImplementation_eq (mem_drivers d)]

/-- A larger depth would not change what a start does. -/
theorem Ready.alloc_eq (h : m.Ready) (d : Fin cfg.n) {depth : ℕ} (hdepth : cfg.n < depth) :
    allocDriver (fun d => (cfg.driver d).gets) depth d m = alloc cfg d m := by
  have hcard : m.unstarted.card ≤ cfg.n := by
    have hle := Finset.card_le_univ m.unstarted
    rwa [Fintype.card_fin] at hle
  exact allocDriver_depth d h.toConsistent (by omega) (by omega)

theorem Ready.alloc (h : m.Ready) (d : Fin cfg.n) : (alloc cfg d m).Ready := by
  obtain ⟨hconsistent, hsame⟩ := @allocDriver_consistent _ _ (fun d => (cfg.driver d).gets)
    (cfg.n + 1) d h.toConsistent
  refine ⟨hconsistent, ?_⟩
  intro e
  exact (congrFun hsame e).trans (h.idle e)

theorem Ready.get (h : m.Ready) (d : Fin cfg.n) :
    (get cfg d m).Ready ∧ (get cfg d m).isStarted d = true := by
  unfold DriverManager.get
  split
  · exact ⟨h, ‹_›⟩
  · exact ⟨h.alloc d, isStarted_allocDriver cfg.n (h.idle d)⟩

/-- What `execute` comes to where the driver exists. -/
theorem execute_eq (h : m.Ready) (ids : BitVec 16 × BitVec 16)
    (hlt : ids.1.toNat < cfg.deviceNum) :
    (execute cfg ids m).1 =
      match cfg.table ids.1 ids.2 with
      | some args => .operation ids.1.toNat ids.2.toNat args
      | none => .returned (if ids.1.toNat = 0 then 0 else -1) := by
  rcases Nat.lt_or_ge ids.1.toNat 2 with hsmall | hlarge
  · obtain hdriver | hdriver : ids.1.toNat = 0 ∨ ids.1.toNat = 1 := by omega
    · simp only [execute, Config.table, Config.signature, hdriver, if_true]
    · simp only [execute, Config.table, Config.signature, hdriver, one_ne_zero, if_false, if_true,
        switch]
  · have hindex : ids.1.toNat - 2 < cfg.n := by
      unfold Config.deviceNum at hlt
      omega
    obtain ⟨d, hd⟩ : ∃ d : Fin cfg.n, driverId d = ids.1.toNat :=
      ⟨⟨ids.1.toNat - 2, hindex⟩, Nat.sub_add_cancel hlarge⟩
    have hdval : (⟨ids.1.toNat - 2, hindex⟩ : Fin cfg.n) = d :=
      driverId_injective ((Nat.sub_add_cancel hlarge).trans hd.symm)
    obtain ⟨hready, hstarted⟩ := h.get d
    have hdevice := hready.device d hstarted
    unfold DriverManager.get at hdevice
    have htable : cfg.table ids.1 ids.2 = (cfg.driver d).operations[ids.2.toNat]? := by
      rw [Config.table, Config.signature, if_neg (by omega), if_neg (by omega), dif_pos hindex,
        hdval]
    unfold execute
    simp only [htable, hdval, dif_pos hindex]
    rw [if_neg (by omega), if_neg (by omega), ← hd, start_eq, hdevice]
    simp only [executeDriver_eq, switch]
    rw [if_neg (by unfold driverId; omega)]

theorem execute_out_of_range (m : DriverManager cfg.n) (ids : BitVec 16 × BitVec 16)
    (hge : cfg.deviceNum ≤ ids.1.toNat) :
    execute cfg ids m = (.outOfBounds (ids.1.toNat - 2), m) := by
  have hpos := cfg.pos
  unfold Config.deviceNum at hge
  unfold execute
  dsimp only
  rw [if_neg (by omega), if_neg (by omega), dif_neg (by omega)]

theorem Ready.execute (h : m.Ready) (ids : BitVec 16 × BitVec 16) :
    (execute cfg ids m).2.Ready := by
  unfold DriverManager.execute
  dsimp only
  split_ifs with hzero hone hindex hstarted
  · exact h
  · exact h
  · split
    · exact h
    · exact h
  · have hstart : start cfg ids.1.toNat m = DriverManager.alloc cfg ⟨ids.1.toNat - 2, hindex⟩ m := by
      have hid : driverId (⟨ids.1.toNat - 2, hindex⟩ : Fin cfg.n) = ids.1.toNat :=
        Nat.sub_add_cancel (by omega)
      rw [← start_eq, hid]
    rw [hstart]
    split
    · exact h.alloc _
    · exact h.alloc _
  · exact h

theorem Reachable.ready (h : Reachable cfg m) : m.Ready := by
  induction h with
  | initial => exact ready_initial
  | get d _ ih => exact (ih.get d).1
  | execute ids _ ih => exact ih.execute ids

/-! ## Safety -/

/-- The operation with these ids, or nothing, and no access out of bounds. -/
def Outcome.Safe (cfg : Config) (ids : BitVec 16 × BitVec 16) : Outcome → Prop
  | .outOfBounds _ | .nullDevice => False
  | .returned _ => True
  | .operation driver op args =>
    driver = ids.1.toNat ∧ op = ids.2.toNat ∧ cfg.table ids.1 ids.2 = some args

instance (cfg : Config) (ids : BitVec 16 × BitVec 16) :
    (outcome : Outcome) → Decidable (outcome.Safe cfg ids)
  | .outOfBounds _ | .nullDevice => inferInstanceAs (Decidable False)
  | .returned _ => inferInstanceAs (Decidable True)
  | .operation driver op args =>
    inferInstanceAs (Decidable
      (driver = ids.1.toNat ∧ op = ids.2.toNat ∧ cfg.table ids.1 ids.2 = some args))

/-- A command is dispatched safely just when there is a driver with its id. -/
theorem execute_safe_iff (h : Reachable cfg m) (ids : BitVec 16 × BitVec 16) :
    (execute cfg ids m).1.Safe cfg ids ↔ ids.1.toNat < cfg.deviceNum := by
  constructor
  · intro hsafe
    by_contra hge
    rw [execute_out_of_range m ids (Nat.le_of_not_lt hge)] at hsafe
    exact hsafe
  · intro hlt
    rw [execute_eq h.ready ids hlt]
    cases htable : cfg.table ids.1 ids.2 with
    | none => trivial
    | some args => exact ⟨rfl, rfl, htable⟩

/-! ## Two drivers -/

/-- The constructor of the second driver gets the first. -/
def twoDrivers : Config where
  n := 2
  driver d := ⟨[[], [.scalar .uint32]], if d = 1 then [0] else []⟩
  pos := by decide

theorem twoDrivers_execute_safe :
    (execute twoDrivers (3, 1) (initial 2)).1.Safe twoDrivers (3, 1) :=
  (execute_safe_iff Reachable.initial (3, 1)).mpr (by decide)

/-- One more than the last driver. -/
theorem twoDrivers_execute_unsafe :
    (execute twoDrivers (4, 0) (initial 2)).1 = .outOfBounds 2 ∧
      ¬ (execute twoDrivers (4, 0) (initial 2)).1.Safe twoDrivers (4, 0) := by
  decide

end Dispatch

end DriverManager

end Koheron
