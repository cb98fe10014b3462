import Hamn.Lib.Steps
import Hamn.Host.Apply

/-!
# Host.Admission — starts that share the memory of the host (`host/core/admission.c`, `host/cmd/cmd_start.c`)

A start holds the locks of its profile, takes the admission lock, reads the configuration of every other profile and
probes its VM, decides, and holds the lock until the VM that it launched is visible to the probe.  Profiles are the
elements of any type; the actions of all starts, of the processes that run the VMs and of the other commands on the
profiles are the actions of one system, in any order.

* `admissionDecide`, `measureProfile`: the decision and the measurement of one profile.
* `State`, `Action`, `step`: the profiles, the VMs and the starts; a VM runs from the spawn of its process to the end of
  it, and one that may run is never stale for the probe.
* `Bounded`, `Inv`: the memory of the VMs is within the bound of the last admission.
-/

namespace Hamn.Host.Admission

/-! ## The decision -/

/-- `admission_pressure`, by its value. -/
inductive Pressure where
  | normal | warn | critical
  deriving DecidableEq, Repr

def Pressure.level : Pressure → ℕ
  | normal => 1
  | warn => 2
  | critical => 4

inductive Power where
  | ac | battery | ups
  deriving DecidableEq, Repr

/-- The bits of `admission_item`. -/
structure Items where
  pressure : Bool := false
  totalMemory : Bool := false
  runningMemory : Bool := false
  load : Bool := false
  cpus : Bool := false
  power : Bool := false
  battery : Bool := false
  deriving DecidableEq, Repr

structure AdmissionVm (P : Type) where
  name : P
  /-- `none` when the configuration cannot be read. -/
  memoryMib : Option ℕ
  verified : Bool
  deriving DecidableEq, Repr

/-- The host at one moment; a `double` is a rational number. -/
structure Snapshot (P : Type) where
  unread : Items := {}
  pressure : Pressure := .normal
  totalMemoryMib : ℕ := 0
  runningMemoryMib : ℕ := 0
  load1m : ℚ := 0
  logicalCpus : ℕ := 1
  power : Power := .ac
  /-- `none` without a battery. -/
  batteryPercent : Option ℕ := none
  vms : List (AdmissionVm P) := []
  deriving DecidableEq

structure Limits where
  memoryReserveMib : ℕ := 0
  refusedPressure : Pressure := .critical
  /-- `none` is no limit. -/
  maxLoadPerCpu : Option ℚ := none
  minBatteryPercent : ℕ := 0
  deriving DecidableEq

inductive Reason where
  | unread | pressure | memory | load | battery
  deriving DecidableEq, Repr

variable {P : Type}

/-- The items that the enabled limits use. -/
def neededItems (snapshot : Snapshot P) (limits : Limits) : Items :=
  let load := limits.maxLoadPerCpu.isSome
  let power := 0 < limits.minBatteryPercent
  { pressure := true, totalMemory := true, runningMemory := true, load, cpus := load, power
    battery := power && !snapshot.unread.power && snapshot.power == .battery }

/-- Whether the sets have an item in common. -/
def Items.meets (a b : Items) : Bool :=
  a.pressure && b.pressure || a.totalMemory && b.totalMemory || a.runningMemory && b.runningMemory || a.load && b.load ||
    a.cpus && b.cpus || a.power && b.power || a.battery && b.battery

/-- `admission_decide`: every reason that refuses. -/
def admissionDecide (snapshot : Snapshot P) (memoryMib : ℕ) (limits : Limits) : List Reason :=
  let unread := snapshot.unread
  (if unread.meets (neededItems snapshot limits) then [.unread] else [] : List Reason) ++
  (if !unread.pressure && decide (limits.refusedPressure.level ≤ snapshot.pressure.level) then [.pressure] else [] :
    List Reason) ++
  (if !unread.totalMemory && !unread.runningMemory &&
      decide (snapshot.totalMemoryMib - limits.memoryReserveMib < snapshot.runningMemoryMib + memoryMib) then [.memory]
    else [] : List Reason) ++
  (if !unread.load && !unread.cpus &&
      limits.maxLoadPerCpu.any (fun most => decide (most < snapshot.load1m / snapshot.logicalCpus)) then [.load] else [] :
    List Reason) ++
  (if !unread.power && !unread.battery && snapshot.power == .battery &&
      decide (snapshot.batteryPercent.getD 0 < limits.minBatteryPercent) then [.battery] else [] :
    List Reason)

/-- An admission keeps the running VMs and the new one within the memory that is not reserved. -/
theorem memory_of_admitted {snapshot : Snapshot P} {memoryMib : ℕ} {limits : Limits}
    (h : admissionDecide snapshot memoryMib limits = []) :
    snapshot.unread.totalMemory = false ∧ snapshot.unread.runningMemory = false ∧
      snapshot.runningMemoryMib + memoryMib ≤ snapshot.totalMemoryMib - limits.memoryReserveMib := by
  unfold admissionDecide at h
  simp only [List.append_eq_nil_iff, ite_eq_right_iff, reduceCtorEq, imp_false] at h
  obtain ⟨⟨⟨⟨hread, -⟩, hmem⟩, -⟩, -⟩ := h
  unfold Items.meets neededItems at hread
  have ht : snapshot.unread.totalMemory = false := by
    by_contra hc
    simp [Bool.eq_true_of_not_eq_false hc] at hread
  have hr : snapshot.unread.runningMemory = false := by
    by_contra hc
    simp [Bool.eq_true_of_not_eq_false hc] at hread
  refine ⟨ht, hr, ?_⟩
  simpa [ht, hr] using hmem

/-! ## The measurement -/

/-- What `profile_read_existing` finds of a profile: no configuration, one that it cannot read, or its memory. -/
inductive Config where
  | missing
  | unreadable
  | memory (mib : ℕ)
  deriving DecidableEq, Repr

/-- `measure_profile` after the configuration was read and the VM was probed; a failed lookup of the directory or of
memory for the list is `listed = false`. -/
def measureProfile (name : P) (config : Config) (probe : VmProcessState) (listed : Bool) (snapshot : Snapshot P) :
    Snapshot P :=
  match config, probe with
  | .missing, _ => snapshot
  | _, .stale => snapshot
  | .unreadable, probe =>
    { snapshot with
      unread := { snapshot.unread with runningMemory := true }
      vms := if listed then snapshot.vms ++ [⟨name, none, probe = .verified⟩] else snapshot.vms }
  | .memory mib, probe =>
    { snapshot with
      unread := { snapshot.unread with runningMemory := snapshot.unread.runningMemory || !listed }
      runningMemoryMib := snapshot.runningMemoryMib + mib
      vms := if listed then snapshot.vms ++ [⟨name, some mib, probe = .verified⟩] else snapshot.vms }

/-! ## The system -/

/-- The process that runs the VM of a profile; `reserve` and `number` are those of the admission of its start. -/
inductive VmRun where
  | none
  /-- It holds the spawn guard and did not write its identity yet. -/
  | starting (memory reserve number : ℕ)
  | running (memory reserve number : ℕ)
  deriving DecidableEq, Repr

namespace VmRun

def memory : VmRun → ℕ
  | none => 0
  | starting m _ _ => m
  | running m _ _ => m

/-- The reserve and the number of the admission. -/
def admission : VmRun → Option (ℕ × ℕ)
  | none => .none
  | starting _ r n => some (r, n)
  | running _ r n => some (r, n)

end VmRun

/-- Where the start of a profile stands; it holds the locks of the profile from `begun` on. -/
inductive Start (P : Type) where
  | idle
  | begun (memory : ℕ)
  /-- It holds the admission lock; `todo` are the names that `readdir` still has, `pending` a configuration that was
  read. -/
  | measuring (memory : ℕ) (limits : Limits) (snapshot : Snapshot P) (todo : Finset P) (pending : Option (P × Config))
  | admitted (memory reserve : ℕ)
  | saved (memory reserve : ℕ)
  | spawned
  deriving DecidableEq

namespace Start

/-- Whether the start holds the admission lock. -/
def holds : Start P → Bool
  | idle => false
  | begun _ => false
  | _ => true

end Start

structure State (P : Type) where
  /-- The directories under `~/.hamn`. -/
  dirs : Finset P
  config : P → Config
  vm : P → VmRun
  start : P → Start P
  /-- The profile whose start holds the admission lock. -/
  holder : Option P
  /-- The reserves of the admissions, the last one first. -/
  reserves : List ℕ

/-- What the environment measures of the host at an admission. -/
structure HostRead where
  unread : Items
  pressure : Pressure
  load1m : ℚ
  logicalCpus : ℕ
  power : Power
  batteryPercent : Option ℕ
  deriving DecidableEq

inductive Action (P : Type) where
  /-- Another command that holds the locks of a profile without a VM changes or removes it. -/
  | change (p : P) (config : Config) (directory : Bool)
  /-- `cmd_start_execute` up to the admission, with the memory that it asks for. -/
  | begin (p : P) (memory : ℕ)
  /-- `admission_admit` gets the lock and lists `~/.hamn`. -/
  | acquire (p : P) (limits : Limits) (host : HostRead)
  | readConfig (p q : P)
  | probe (p : P) (answer : VmProcessState) (listed : Bool)
  /-- `readdir` fails. -/
  | unlisted (p : P)
  | decide (p : P)
  /-- With no VM left of an earlier start the configuration is saved. -/
  | save (p : P)
  | spawn (p : P)
  /-- The process of a VM writes its identity and completes the guard. -/
  | identify (p : P)
  /-- The VM is visible to the probe: the start releases the admission lock. -/
  | release (p : P)
  /-- A start fails, is cancelled or dies, at any point. -/
  | fail (p : P)
  /-- The VM of a profile ends: it stops, is stopped, or its process dies. -/
  | stop (p : P)
  deriving DecidableEq

variable [DecidableEq P]

namespace State

/-- The configured memory of all VMs that run or are being started. -/
def running (s : State P) : ℕ := ∑ q ∈ s.dirs, (s.vm q).memory

def setStart (s : State P) (p : P) (start : Start P) : State P := { s with start := Function.update s.start p start }

def setVm (s : State P) (p : P) (vm : VmRun) : State P := { s with vm := Function.update s.vm p vm }

def setConfig (s : State P) (p : P) (config : Config) : State P :=
  { s with config := Function.update s.config p config }

/-- The lock is free when `p` held it. -/
def unlock (s : State P) (p : P) : State P := if s.holder = some p then { s with holder := none } else s

end State

/-- Whether `vm_process_probe` may answer this about the VM: never stale for one that runs or is being started. -/
def mayAnswer (vm : VmRun) (answer : VmProcessState) : Bool := vm == .none || answer != .stale

variable (total : ℕ)

def step (s : State P) : Action P → Option (State P)
  | .change p config directory =>
    if s.vm p = .none ∧ s.start p = .idle then
      some (if directory then { s.setConfig p config with dirs := insert p s.dirs }
        else { s.setConfig p .missing with dirs := s.dirs.erase p })
    else none
  | .begin p memory =>
    -- a running VM keeps its resources, one that is being started is waited for
    match s.start p, s.vm p with
    | .idle, .none => some ({ s with dirs := insert p s.dirs }.setStart p (.begun memory))
    | .idle, .running m _ _ =>
      if m = memory then some ({ s with dirs := insert p s.dirs }.setStart p (.begun memory)) else none
    | _, _ => none
  | .acquire p limits host =>
    match s.start p, s.holder with
    | .begun memory, none =>
      let snapshot : Snapshot P := { host with totalMemoryMib := total }
      some { s.setStart p (.measuring memory limits snapshot (s.dirs.erase p) none) with holder := some p }
    | _, _ => none
  | .readConfig p q =>
    match s.start p with
    | .measuring memory limits snapshot todo none =>
      if q ∈ todo then
        some (s.setStart p (match s.config q with
          | .missing => .measuring memory limits snapshot (todo.erase q) none
          | config => .measuring memory limits snapshot todo (some (q, config))))
      else none
    | _ => none
  | .probe p answer listed =>
    match s.start p with
    | .measuring memory limits snapshot todo (some (q, config)) =>
      if mayAnswer (s.vm q) answer then
        some (s.setStart p (.measuring memory limits (measureProfile q config answer listed snapshot) (todo.erase q) none))
      else none
    | _ => none
  | .unlisted p =>
    match s.start p with
    | .measuring memory limits snapshot _ none =>
      some (s.setStart p (.measuring memory limits
        { snapshot with unread := { snapshot.unread with runningMemory := true } } ∅ none))
    | _ => none
  | .decide p =>
    match s.start p with
    | .measuring memory limits snapshot todo none =>
      if todo = ∅ then
        if admissionDecide snapshot memory limits = [] then
          some { s.setStart p (.admitted memory limits.memoryReserveMib) with
            reserves := limits.memoryReserveMib :: s.reserves }
        else some ((s.setStart p .idle).unlock p)
      else none
    | _ => none
  | .save p =>
    match s.start p, s.vm p with
    | .admitted memory reserve, .none => some ((s.setConfig p (.memory memory)).setStart p (.saved memory reserve))
    | _, _ => none
  | .spawn p =>
    match s.start p with
    | .saved memory reserve => some ((s.setVm p (.starting memory reserve s.reserves.length)).setStart p .spawned)
    | _ => none
  | .identify p =>
    match s.vm p with
    | .starting memory reserve number => some (s.setVm p (.running memory reserve number))
    | _ => none
  | .release p =>
    match s.start p, s.vm p with
    | .spawned, .starting _ _ _ => none
    | .spawned, _ => some ((s.setStart p .idle).unlock p)
    | _, _ => none
  | .fail p => if s.start p = .idle then none else some ((s.setStart p .idle).unlock p)
  | .stop p => if s.vm p = .none then none else some (s.setVm p .none)

/-- No VM runs and no start is under way. -/
structure Initial (s : State P) : Prop where
  vm : ∀ p, s.vm p = .none
  start : ∀ p, s.start p = .idle
  holder : s.holder = none
  reserves : s.reserves = []

abbrev Reachable (s : State P) : Prop := Steps.Reachable (step total) Initial s

/-! ## What a step does -/

variable {total} {s s' : State P}

theorem step_change {p : P} {config : Config} {directory : Bool}
    (h : step total s (.change p config directory) = some s') : s.vm p = .none ∧ s.start p = .idle ∧
      s' = if directory then { s.setConfig p config with dirs := insert p s.dirs }
        else { s.setConfig p .missing with dirs := s.dirs.erase p } := by
  simp only [step] at h
  split_ifs at h with hp hd
  · exact ⟨hp.1, hp.2, by rw [if_pos hd]; exact (Option.some.inj h).symm⟩
  · exact ⟨hp.1, hp.2, by rw [if_neg hd]; exact (Option.some.inj h).symm⟩

theorem step_begin {p : P} {memory : ℕ} (h : step total s (.begin p memory) = some s') :
    s.start p = .idle ∧ (s.vm p).memory ≤ memory ∧
      s' = { s with dirs := insert p s.dirs }.setStart p (.begun memory) := by
  simp only [step] at h
  split at h
  · rename_i hs hv
    exact ⟨hs, by rw [hv]; exact Nat.zero_le _, (Option.some.inj h).symm⟩
  · rename_i m _ _ hs hv
    by_cases hm : m = memory
    · rw [if_pos hm] at h
      exact ⟨hs, by rw [hv]; exact hm.le, (Option.some.inj h).symm⟩
    · rw [if_neg hm] at h
      cases h
  · cases h

theorem step_acquire {p : P} {limits : Limits} {host : HostRead} (h : step total s (.acquire p limits host) = some s') :
    ∃ memory, s.start p = .begun memory ∧ s.holder = none ∧ ∃ snapshot : Snapshot P,
      snapshot.totalMemoryMib = total ∧ snapshot.runningMemoryMib = 0 ∧
        s' = { s.setStart p (.measuring memory limits snapshot (s.dirs.erase p) none) with holder := some p } := by
  simp only [step] at h
  split at h
  · rename_i memory hs hh
    exact ⟨memory, hs, hh, _, rfl, rfl, (Option.some.inj h).symm⟩
  · cases h

theorem step_readConfig {p q : P} (h : step total s (.readConfig p q) = some s') :
    ∃ memory limits snapshot todo, s.start p = .measuring memory limits snapshot todo none ∧
      (s.config q = .missing ∧ s' = s.setStart p (.measuring memory limits snapshot (todo.erase q) none) ∨
        s' = s.setStart p (.measuring memory limits snapshot todo (some (q, s.config q)))) := by
  simp only [step] at h
  split at h
  · rename_i memory limits snapshot todo hs
    refine ⟨memory, limits, snapshot, todo, hs, ?_⟩
    by_cases hq : q ∈ todo
    · rw [if_pos hq] at h
      cases hc : s.config q with
      | missing =>
        simp only [hc] at h
        exact Or.inl ⟨rfl, (Option.some.inj h).symm⟩
      | unreadable =>
        simp only [hc] at h
        exact Or.inr (Option.some.inj h).symm
      | memory mib =>
        simp only [hc] at h
        exact Or.inr (Option.some.inj h).symm
    · rw [if_neg hq] at h
      cases h
  · cases h

theorem step_probe {p : P} {answer : VmProcessState} {listed : Bool} (h : step total s (.probe p answer listed) = some s') :
    ∃ memory limits snapshot todo q config, s.start p = .measuring memory limits snapshot todo (some (q, config)) ∧
      mayAnswer (s.vm q) answer = true ∧
      s' = s.setStart p
        (.measuring memory limits (measureProfile q config answer listed snapshot) (todo.erase q) none) := by
  simp only [step] at h
  split at h
  · rename_i memory limits snapshot todo q config hs
    by_cases ha : mayAnswer (s.vm q) answer = true
    · rw [if_pos ha] at h
      exact ⟨memory, limits, snapshot, todo, q, config, hs, ha, (Option.some.inj h).symm⟩
    · rw [if_neg ha] at h
      cases h
  · cases h

theorem step_unlisted {p : P} (h : step total s (.unlisted p) = some s') :
    ∃ memory limits snapshot todo, s.start p = .measuring memory limits snapshot todo none ∧
      s' = s.setStart p (.measuring memory limits
        { snapshot with unread := { snapshot.unread with runningMemory := true } } ∅ none) := by
  simp only [step] at h
  split at h
  · rename_i memory limits snapshot todo hs
    exact ⟨memory, limits, snapshot, todo, hs, (Option.some.inj h).symm⟩
  · cases h

theorem step_decide {p : P} (h : step total s (.decide p) = some s') :
    ∃ memory limits snapshot, s.start p = .measuring memory limits snapshot ∅ none ∧
      (admissionDecide snapshot memory limits = [] ∧
        s' = { s.setStart p (.admitted memory limits.memoryReserveMib) with
          reserves := limits.memoryReserveMib :: s.reserves } ∨
        s' = (s.setStart p .idle).unlock p) := by
  simp only [step] at h
  split at h
  · rename_i memory limits snapshot todo hs
    by_cases ht : todo = ∅
    · rw [if_pos ht] at h
      subst ht
      refine ⟨memory, limits, snapshot, hs, ?_⟩
      by_cases hd : admissionDecide snapshot memory limits = []
      · rw [if_pos hd] at h
        exact Or.inl ⟨hd, (Option.some.inj h).symm⟩
      · rw [if_neg hd] at h
        exact Or.inr (Option.some.inj h).symm
    · rw [if_neg ht] at h
      cases h
  · cases h

theorem step_save {p : P} (h : step total s (.save p) = some s') :
    ∃ memory reserve, s.start p = .admitted memory reserve ∧ s.vm p = .none ∧
      s' = (s.setConfig p (.memory memory)).setStart p (.saved memory reserve) := by
  simp only [step] at h
  split at h
  · rename_i memory reserve hs hv
    exact ⟨memory, reserve, hs, hv, (Option.some.inj h).symm⟩
  · cases h

theorem step_spawn {p : P} (h : step total s (.spawn p) = some s') :
    ∃ memory reserve, s.start p = .saved memory reserve ∧
      s' = (s.setVm p (.starting memory reserve s.reserves.length)).setStart p .spawned := by
  simp only [step] at h
  split at h
  · rename_i memory reserve hs
    exact ⟨memory, reserve, hs, (Option.some.inj h).symm⟩
  · cases h

theorem step_identify {p : P} (h : step total s (.identify p) = some s') :
    ∃ memory reserve number, s.vm p = .starting memory reserve number ∧
      s' = s.setVm p (.running memory reserve number) := by
  simp only [step] at h
  split at h
  · rename_i memory reserve number hv
    exact ⟨memory, reserve, number, hv, (Option.some.inj h).symm⟩
  · cases h

theorem step_release {p : P} (h : step total s (.release p) = some s') : s' = (s.setStart p .idle).unlock p := by
  simp only [step] at h
  split at h
  · cases h
  · exact (Option.some.inj h).symm
  · cases h

theorem step_fail {p : P} (h : step total s (.fail p) = some s') : s' = (s.setStart p .idle).unlock p := by
  simp only [step] at h
  split_ifs at h
  exact (Option.some.inj h).symm

theorem step_stop {p : P} (h : step total s (.stop p) = some s') : s' = s.setVm p .none := by
  simp only [step] at h
  split_ifs at h
  exact (Option.some.inj h).symm

/-! ## Steps that add no VM -/

/-- From `s` to `s'` no VM was added and no admission was made. -/
structure Shrinks (s s' : State P) : Prop where
  vm : ∀ q, s'.vm q = .none ∨ s.vm q ≠ .none ∧ (s'.vm q).memory = (s.vm q).memory ∧
    (s'.vm q).admission = (s.vm q).admission
  added : ∀ q ∈ s'.dirs, q ∈ s.dirs ∨ s'.vm q = .none
  removed : ∀ q ∈ s.dirs, q ∈ s'.dirs ∨ s'.vm q = .none ∧ s.start q = .idle
  config : ∀ q, s'.config q = s.config q ∨ s'.vm q = .none ∧ (s.start q = .idle ∨ s'.start q ≠ s.start q)
  reserves : s'.reserves = s.reserves

omit [DecidableEq P] in
theorem Shrinks.of_eq (hvm : s'.vm = s.vm) (hdirs : s'.dirs = s.dirs) (hconfig : s'.config = s.config)
    (hreserves : s'.reserves = s.reserves) : Shrinks s s' where
  vm q := by
    rw [hvm]
    by_cases h : s.vm q = .none
    · exact Or.inl h
    · exact Or.inr ⟨h, rfl, rfl⟩
  added q hq := Or.inl (hdirs ▸ hq)
  removed q hq := Or.inl (hdirs ▸ hq)
  config q := Or.inl (congrFun hconfig q)
  reserves := hreserves

omit [DecidableEq P] in
/-- A sum over fewer elements with smaller values, except for values of zero. -/
theorem sum_le {A A' : Finset P} {f f' : P → ℕ} (h : ∀ q ∈ A', f' q = 0 ∨ q ∈ A ∧ f' q ≤ f q) :
    ∑ q ∈ A', f' q ≤ ∑ q ∈ A, f q := by
  classical
  calc ∑ q ∈ A', f' q = ∑ q ∈ A' with f' q ≠ 0, f' q := (Finset.sum_filter_ne_zero A').symm
    _ ≤ ∑ q ∈ A' with f' q ≠ 0, f q := by
      refine Finset.sum_le_sum fun q hq => ?_
      obtain ⟨hq, hne⟩ := Finset.mem_filter.mp hq
      exact ((h q hq).resolve_left hne).2
    _ ≤ ∑ q ∈ A, f q := by
      refine Finset.sum_le_sum_of_subset fun q hq => ?_
      obtain ⟨hq, hne⟩ := Finset.mem_filter.mp hq
      exact ((h q hq).resolve_left hne).1

theorem memory_eq_zero {vm : VmRun} (h : vm = .none) : vm.memory = 0 := by
  rw [h]
  rfl

namespace Shrinks

omit [DecidableEq P] in
theorem memory_le (h : Shrinks s s') (q : P) : (s'.vm q).memory ≤ (s.vm q).memory := by
  rcases h.vm q with hn | ⟨-, hm, -⟩
  · rw [memory_eq_zero hn]
    exact Nat.zero_le _
  · exact hm.le

omit [DecidableEq P] in
/-- The memory of the VMs in a part of the directories. -/
theorem sum_memory_le (h : Shrinks s s') {keep : P → Prop} [DecidablePred keep] :
    ∑ q ∈ s'.dirs with keep q, (s'.vm q).memory ≤ ∑ q ∈ s.dirs with keep q, (s.vm q).memory := by
  refine sum_le fun q hq => ?_
  obtain ⟨hq, hk⟩ := Finset.mem_filter.mp hq
  rcases h.added q hq with hd | hn
  · exact Or.inr ⟨Finset.mem_filter.mpr ⟨hd, hk⟩, h.memory_le q⟩
  · exact Or.inl (memory_eq_zero hn)

omit [DecidableEq P] in
theorem running_le (h : Shrinks s s') : s'.running ≤ s.running := by
  refine sum_le fun q hq => ?_
  rcases h.added q hq with hd | hn
  · exact Or.inr ⟨hd, h.memory_le q⟩
  · exact Or.inl (memory_eq_zero hn)

end Shrinks

/-! ## The invariant -/

/-- The memory of the VMs of other profiles that a start counts or has counted. -/
def State.others (s : State P) (p : P) (todo : Finset P) : ℕ :=
  ∑ q ∈ s.dirs with q ≠ p ∧ q ∉ todo, (s.vm q).memory

variable (total) in
/-- The room that the last admission, of the start of `p`, has left. -/
def Admitted (s : State P) (p : P) (memory reserve : ℕ) : Prop :=
  s.reserves.head? = some reserve ∧ s.others p ∅ + memory ≤ total - reserve

variable (total) in
/-- What a start may rely on. -/
def StartOk (s : State P) (p : P) : Start P → Prop
  | .idle => True
  | .begun memory => (s.vm p).memory ≤ memory ∧ p ∈ s.dirs
  | .measuring memory _ snapshot todo pending => (s.vm p).memory ≤ memory ∧ p ∈ s.dirs ∧ snapshot.totalMemoryMib = total ∧
    (snapshot.unread.runningMemory = false → s.others p todo ≤ snapshot.runningMemoryMib) ∧
    ∀ q config, pending = some (q, config) → s.vm q ≠ .none → config = .memory (s.vm q).memory
  | .admitted memory reserve => (s.vm p).memory ≤ memory ∧ p ∈ s.dirs ∧ Admitted total s p memory reserve
  | .saved memory reserve => s.vm p = .none ∧ p ∈ s.dirs ∧ s.config p = .memory memory ∧
    Admitted total s p memory reserve
  | .spawned => True

variable (total) in
structure Inv (s : State P) : Prop where
  dirs : ∀ q, s.vm q ≠ .none → q ∈ s.dirs
  config : ∀ q, s.vm q ≠ .none → s.config q = .memory (s.vm q).memory
  holder : ∀ p, (s.start p).holds = true → s.holder = some p
  start : ∀ p, StartOk total s p (s.start p)
  bound : ∀ r, s.reserves.head? = some r → s.running ≤ total - r
  admission : ∀ p r n, (s.vm p).admission = some (r, n) →
    0 < n ∧ n ≤ s.reserves.length ∧ s.reserves[s.reserves.length - n]? = some r

theorem StartOk.shrinks {p : P} (h : StartOk total s p (s.start p)) (hs : Shrinks s s') (he : s'.start p = s.start p) :
    StartOk total s' p (s'.start p) := by
  rw [he]
  have hdir : s.start p ≠ .idle → p ∈ s.dirs → p ∈ s'.dirs := fun hne hp =>
    (hs.removed p hp).resolve_right fun hr => hne hr.2
  have hadm : ∀ {m r}, Admitted total s p m r → Admitted total s' p m r := fun hadm =>
    ⟨hs.reserves ▸ hadm.1, le_trans (Nat.add_le_add_right hs.sum_memory_le _) hadm.2⟩
  cases hst : s.start p with
  | idle => trivial
  | spawned => trivial
  | begun m =>
    rw [hst] at h
    exact ⟨(hs.memory_le p).trans h.1, hdir (by rw [hst]; nofun) h.2⟩
  | measuring m limits snapshot todo pending =>
    rw [hst] at h
    obtain ⟨hm, hp, ht, hsum, hpend⟩ := h
    refine ⟨(hs.memory_le p).trans hm, hdir (by rw [hst]; nofun) hp, ht, fun hu => ?_, fun q config hq hne => ?_⟩
    · exact hs.sum_memory_le.trans (hsum hu)
    · obtain ⟨hne', hmem, -⟩ := (hs.vm q).resolve_left hne
      rw [hmem]
      exact hpend q config hq hne'
  | admitted m r =>
    rw [hst] at h
    exact ⟨(hs.memory_le p).trans h.1, hdir (by rw [hst]; nofun) h.2.1, hadm h.2.2⟩
  | saved m r =>
    rw [hst] at h
    obtain ⟨hv, hp, hc, ha⟩ := h
    have hv' : s'.vm p = .none := (hs.vm p).resolve_right fun hr => hr.1 hv
    have hc' : s'.config p = s.config p := by
      refine (hs.config p).resolve_right fun hr => ?_
      rcases hr.2 with hidle | hne
      · rw [hst] at hidle
        cases hidle
      · exact hne he
    exact ⟨hv', hdir (by rw [hst]; nofun) hp, hc'.trans hc, hadm ha⟩

/-- A step that adds no VM and makes no admission. -/
theorem Inv.shrinks (h : Inv total s) (hs : Shrinks s s')
    (hholder : ∀ p, (s'.start p).holds = true → s'.holder = some p)
    (hstart : ∀ p, s'.start p = s.start p ∨ StartOk total s' p (s'.start p)) : Inv total s' where
  dirs q hq := by
    obtain ⟨hne, -⟩ := (hs.vm q).resolve_left hq
    exact (hs.removed q (h.dirs q hne)).resolve_right fun hr => hq hr.1
  config q hq := by
    obtain ⟨hne, hm, -⟩ := (hs.vm q).resolve_left hq
    rw [(hs.config q).resolve_right fun hr => hq hr.1, h.config q hne, hm]
  holder := hholder
  start p := (hstart p).elim (fun he => (h.start p).shrinks hs he) id
  bound r hr := hs.running_le.trans (h.bound r (hs.reserves ▸ hr))
  admission p r n hp := by
    rcases hs.vm p with hn | ⟨-, -, ha⟩
    · rw [hn] at hp
      cases hp
    · rw [hs.reserves]
      exact h.admission p r n (ha ▸ hp)

/-- A start goes on without a change of the profiles. -/
theorem Inv.setStart (h : Inv total s) {p : P} {start : Start P} (holder : Option P) (hok : StartOk total s p start)
    (hp : start.holds = true → holder = some p) (hq : ∀ q, q ≠ p → s.holder = some q → holder = some q) :
    Inv total { s.setStart p start with holder } := by
  refine h.shrinks (Shrinks.of_eq rfl rfl rfl rfl) (fun q hheld => ?_) fun q => ?_
  · by_cases he : q = p
    · subst he
      refine hp ?_
      rwa [show ({ s.setStart q start with holder } : State P).start q = start from Function.update_self ..] at hheld
    · rw [show ({ s.setStart p start with holder } : State P).start q = s.start q from Function.update_of_ne he ..]
        at hheld
      exact hq q he (h.holder q hheld)
  · by_cases he : q = p
    · subst he
      refine Or.inr ?_
      rw [show ({ s.setStart q start with holder } : State P).start q = start from Function.update_self ..]
      cases start <;> exact hok
    · exact Or.inl (Function.update_of_ne he ..)

/-- A start gives up or is over. -/
theorem Inv.unlock (h : Inv total s) (p : P) : Inv total ((s.setStart p .idle).unlock p) := by
  have he : (s.setStart p .idle).unlock p =
      { s.setStart p .idle with holder := if s.holder = some p then none else s.holder } := by
    unfold State.unlock
    by_cases hh : s.holder = some p
    · rw [if_pos hh]
      exact if_pos hh
    · rw [if_neg hh]
      exact if_neg hh
  rw [he]
  refine h.setStart _ trivial nofun fun q hq hh => ?_
  rw [if_neg, hh]
  rw [hh]
  exact fun hqp => hq (Option.some.inj hqp)

/-- Only the start that holds the lock is past the admission lock. -/
theorem Inv.not_holds (h : Inv total s) {p q : P} (hp : (s.start p).holds = true) (hne : q ≠ p) :
    (s.start q).holds = false := by
  by_contra hq
  have h1 := h.holder p hp
  rw [h.holder q (Bool.eq_true_of_not_eq_false hq)] at h1
  exact hne (Option.some.inj h1)

theorem Inv.change (h : Inv total s) {p : P} {config : Config} {directory : Bool}
    (hs : step total s (.change p config directory) = some s') : Inv total s' := by
  obtain ⟨hv, hi, rfl⟩ := step_change hs
  have hcfg : ∀ c q, Function.update s.config p c q = s.config q ∨ s.vm q = .none ∧ (s.start q = .idle ∨
      s.start q ≠ s.start q) := by
    intro c q
    by_cases hq : q = p
    · subst hq
      exact Or.inr ⟨hv, Or.inl hi⟩
    · exact Or.inl (Function.update_of_ne hq ..)
  have hself : Shrinks s s := .of_eq rfl rfl rfl rfl
  cases directory with
  | true =>
    refine h.shrinks ⟨hself.vm, fun q hq => ?_, fun q hq => Or.inl (Finset.mem_insert_of_mem hq), hcfg config, rfl⟩
      h.holder fun q => Or.inl rfl
    rcases Finset.mem_insert.mp hq with rfl | hq
    · exact Or.inr hv
    · exact Or.inl hq
  | false =>
    refine h.shrinks ⟨hself.vm, fun q hq => Or.inl (Finset.mem_of_mem_erase hq), fun q hq => ?_, hcfg .missing, rfl⟩
      h.holder fun q => Or.inl rfl
    by_cases hqp : q = p
    · subst hqp
      exact Or.inr ⟨hv, hi⟩
    · exact Or.inl (Finset.mem_erase.mpr ⟨hqp, hq⟩)

theorem Inv.begin (h : Inv total s) {p : P} {memory : ℕ} (hs : step total s (.begin p memory) = some s') :
    Inv total s' := by
  obtain ⟨hi, hm, rfl⟩ := step_begin hs
  have hins : Inv total { s with dirs := insert p s.dirs } := by
    have hself : Shrinks s s := .of_eq rfl rfl rfl rfl
    by_cases hp : p ∈ s.dirs
    · rw [Finset.insert_eq_of_mem hp]
      exact h
    · have hv : s.vm p = .none := by
        by_contra hne
        exact hp (h.dirs p hne)
      refine h.shrinks ⟨hself.vm, fun q hq => ?_, fun q hq => Or.inl (Finset.mem_insert_of_mem hq), hself.config, rfl⟩
        h.holder fun q => Or.inl rfl
      rcases Finset.mem_insert.mp hq with rfl | hq
      · exact Or.inr hv
      · exact Or.inl hq
  exact hins.setStart s.holder ⟨hm, Finset.mem_insert_self p _⟩ nofun fun q _ hq => hq

theorem Inv.acquire (h : Inv total s) {p : P} {limits : Limits} {host : HostRead}
    (hs : step total s (.acquire p limits host) = some s') : Inv total s' := by
  obtain ⟨memory, hb, hfree, snapshot, ht, hr, rfl⟩ := step_acquire hs
  have hok := h.start p
  rw [hb] at hok
  refine h.setStart _ ⟨hok.1, hok.2, ht, fun _ => ?_, nofun⟩ (fun _ => rfl) fun q _ hq => ?_
  · rw [hr]
    refine (Finset.sum_eq_zero fun q hq => ?_).le
    obtain ⟨hq, hne, hnot⟩ := Finset.mem_filter.mp hq
    exact absurd (Finset.mem_erase.mpr ⟨hne, hq⟩) hnot
  · rw [hfree] at hq
    cases hq

theorem State.others_erase_le (s : State P) (p q : P) (todo : Finset P) :
    s.others p (todo.erase q) ≤ s.others p todo + (s.vm q).memory := by
  have hsub : s.others p (todo.erase q) ≤ ∑ r ∈ insert q {r ∈ s.dirs | r ≠ p ∧ r ∉ todo}, (s.vm r).memory := by
    refine Finset.sum_le_sum_of_subset fun r hr => ?_
    obtain ⟨hr, hne, hnot⟩ := Finset.mem_filter.mp hr
    by_cases hrq : r = q
    · exact Finset.mem_insert.mpr (Or.inl hrq)
    · refine Finset.mem_insert_of_mem (Finset.mem_filter.mpr ⟨hr, hne, fun hrt => hnot ?_⟩)
      exact Finset.mem_erase.mpr ⟨hrq, hrt⟩
  refine hsub.trans ?_
  by_cases hq : q ∈ ({r ∈ s.dirs | r ≠ p ∧ r ∉ todo} : Finset P)
  · rw [Finset.insert_eq_of_mem hq]
    exact Nat.le_add_right _ _
  · rw [Finset.sum_insert hq, add_comm]
    rfl

theorem Inv.readConfig (h : Inv total s) {p q : P} (hs : step total s (.readConfig p q) = some s') : Inv total s' := by
  obtain ⟨memory, limits, snapshot, todo, hst, hs'⟩ := step_readConfig hs
  have hok := h.start p
  rw [hst] at hok
  obtain ⟨hm, hp, ht, hsum, -⟩ := hok
  have hheld := h.holder p (by rw [hst]; rfl)
  rcases hs' with ⟨hmiss, rfl⟩ | rfl
  · refine h.setStart s.holder ⟨hm, hp, ht, fun hu => ?_, nofun⟩ (fun _ => hheld) fun r _ hr => hr
    -- a VM has a configuration
    have hv : s.vm q = .none := by
      by_contra hne
      rw [h.config q hne] at hmiss
      cases hmiss
    have := s.others_erase_le p q todo
    rw [hv] at this
    exact this.trans (hsum hu)
  · refine h.setStart s.holder ⟨hm, hp, ht, hsum, fun r config hr hne => ?_⟩ (fun _ => hheld) fun r _ hr => hr
    obtain ⟨rfl, rfl⟩ := Prod.mk.inj (Option.some.inj hr)
    exact h.config q hne

theorem Inv.probe (h : Inv total s) {p : P} {answer : VmProcessState} {listed : Bool}
    (hs : step total s (.probe p answer listed) = some s') : Inv total s' := by
  obtain ⟨memory, limits, snapshot, todo, q, config, hst, ha, rfl⟩ := step_probe hs
  have hok := h.start p
  rw [hst] at hok
  obtain ⟨hm, hp, ht, hsum, hpend⟩ := hok
  refine h.setStart s.holder ⟨hm, hp, ?_, fun hu => ?_, nofun⟩ (fun _ => h.holder p (by rw [hst]; rfl))
    fun r _ hr => hr
  · unfold measureProfile
    split <;> exact ht
  · refine (s.others_erase_le p q todo).trans ?_
    by_cases hv : s.vm q = .none
    · -- nothing runs: whatever was counted is more than enough
      rw [hv]
      unfold measureProfile at hu ⊢
      split at hu
      · exact hsum hu
      · exact hsum hu
      · cases hu
      · rw [Bool.or_eq_false_iff] at hu
        exact (hsum hu.1).trans (Nat.le_add_right _ _)
    · -- its configuration was read while it ran, and it is not stale
      have hcfg := hpend q config rfl hv
      subst hcfg
      unfold mayAnswer at ha
      have hans : answer ≠ .stale := by
        intro he
        rw [he] at ha
        simp [hv] at ha
      cases answer with
      | stale => exact absurd rfl hans
      | verified =>
        simp only [measureProfile, Bool.or_eq_false_iff] at hu ⊢
        exact Nat.add_le_add_right (hsum hu.1) _
      | unverified =>
        simp only [measureProfile, Bool.or_eq_false_iff] at hu ⊢
        exact Nat.add_le_add_right (hsum hu.1) _

theorem Inv.unlisted (h : Inv total s) {p : P} (hs : step total s (.unlisted p) = some s') : Inv total s' := by
  obtain ⟨memory, limits, snapshot, todo, hst, rfl⟩ := step_unlisted hs
  have hok := h.start p
  rw [hst] at hok
  exact h.setStart s.holder ⟨hok.1, hok.2.1, hok.2.2.1, nofun, nofun⟩
    (fun _ => h.holder p (by rw [hst]; rfl)) fun r _ hr => hr

/-- The memory of all VMs is that of the start's own and of the others. -/
theorem State.running_eq {p : P} (hp : p ∈ s.dirs) : s.running = s.others p ∅ + (s.vm p).memory := by
  unfold State.running State.others
  rw [← Finset.sum_erase_add s.dirs _ hp]
  congr 1
  refine Finset.sum_congr ?_ fun _ _ => rfl
  ext q
  simp only [Finset.mem_erase, Finset.mem_filter, Finset.notMem_empty, not_false_eq_true, and_true]
  exact and_comm

/-- The other starts are not past the admission lock, so what they rely on does not depend on the admissions. -/
theorem StartOk.of_not_holds {q : P} (h : StartOk total s q (s.start q)) (hn : (s.start q).holds = false)
    (hstart : s'.start q = s.start q) (hvm : s'.vm q = s.vm q) (hdirs : s'.dirs = s.dirs) :
    StartOk total s' q (s'.start q) := by
  rw [hstart]
  cases hst : s.start q with
  | idle => trivial
  | begun m =>
    rw [hst] at h
    exact ⟨hvm ▸ h.1, hdirs ▸ h.2⟩
  | _ =>
    rw [hst] at hn
    cases hn

theorem Inv.decide (h : Inv total s) {p : P} (hs : step total s (.decide p) = some s') : Inv total s' := by
  obtain ⟨memory, limits, snapshot, hst, hs'⟩ := step_decide hs
  have hok := h.start p
  rw [hst] at hok
  obtain ⟨hm, hp, ht, hsum, -⟩ := hok
  have hheld : (s.start p).holds = true := by
    rw [hst]
    rfl
  rcases hs' with ⟨hd, rfl⟩ | rfl
  swap
  · exact h.unlock p
  obtain ⟨-, hread, hroom⟩ := memory_of_admitted hd
  rw [ht] at hroom
  have hadm : s.others p ∅ + memory ≤ total - limits.memoryReserveMib :=
    (Nat.add_le_add_right (hsum hread) memory).trans hroom
  have hself : Function.update s.start p (.admitted memory limits.memoryReserveMib) p =
      .admitted memory limits.memoryReserveMib := Function.update_self ..
  have hother : ∀ q, q ≠ p → Function.update s.start p (.admitted memory limits.memoryReserveMib) q = s.start q :=
    fun q hq => Function.update_of_ne hq ..
  refine ⟨h.dirs, h.config, fun q hq => ?_, fun q => ?_, fun r hr => ?_, fun q r n hq => ?_⟩
  · by_cases hqp : q = p
    · subst hqp
      exact h.holder q hheld
    · change (Function.update s.start p _ q).holds = true at hq
      rw [hother q hqp, h.not_holds hheld hqp] at hq
      cases hq
  · by_cases hqp : q = p
    · subst hqp
      change StartOk total _ q (Function.update s.start q _ q)
      rw [hself]
      exact ⟨hm, hp, rfl, hadm⟩
    · exact (h.start q).of_not_holds (h.not_holds hheld hqp) (hother q hqp) rfl rfl
  · obtain rfl := Option.some.inj hr
    change s.running ≤ _
    rw [State.running_eq hp]
    exact (Nat.add_le_add_left hm _).trans hadm
  · obtain ⟨hpos, hle, hget⟩ := h.admission q r n hq
    refine ⟨hpos, hle.trans (Nat.le_succ _), ?_⟩
    rw [List.length_cons, Nat.succ_sub hle]
    exact hget

theorem Inv.save (h : Inv total s) {p : P} (hs : step total s (.save p) = some s') : Inv total s' := by
  obtain ⟨memory, reserve, hst, hv, rfl⟩ := step_save hs
  have hok := h.start p
  rw [hst] at hok
  obtain ⟨-, hp, hadm⟩ := hok
  have hheld : (s.start p).holds = true := by
    rw [hst]
    rfl
  have hself : Function.update s.start p (.saved memory reserve) p = .saved memory reserve := Function.update_self ..
  have hother : ∀ q, q ≠ p → Function.update s.start p (.saved memory reserve) q = s.start q :=
    fun q hq => Function.update_of_ne hq ..
  have hne : Function.update s.start p (.saved memory reserve) p ≠ s.start p := by
    rw [hself, hst]
    nofun
  have hsame : Shrinks s s := .of_eq rfl rfl rfl rfl
  refine h.shrinks ⟨hsame.vm, hsame.added, hsame.removed, fun q => ?_, rfl⟩ (fun q hq => ?_) fun q => ?_
  · by_cases hqp : q = p
    · subst hqp
      exact Or.inr ⟨hv, Or.inr hne⟩
    · exact Or.inl (Function.update_of_ne hqp ..)
  · by_cases hqp : q = p
    · subst hqp
      exact h.holder q hheld
    · change (Function.update s.start p _ q).holds = true at hq
      rw [hother q hqp, h.not_holds hheld hqp] at hq
      cases hq
  · by_cases hqp : q = p
    · subst hqp
      refine Or.inr ?_
      change StartOk total _ q (Function.update s.start q _ q)
      rw [hself]
      exact ⟨hv, hp, Function.update_self .., hadm⟩
    · exact Or.inl (hother q hqp)

theorem Inv.spawn (h : Inv total s) {p : P} (hs : step total s (.spawn p) = some s') : Inv total s' := by
  obtain ⟨memory, reserve, hst, rfl⟩ := step_spawn hs
  have hok := h.start p
  rw [hst] at hok
  obtain ⟨hv, hp, hc, hhead, hroom⟩ := hok
  have hheld : (s.start p).holds = true := by
    rw [hst]
    rfl
  have hstart : ∀ q, q ≠ p → Function.update s.start p .spawned q = s.start q := fun q hq => Function.update_of_ne hq ..
  have hvm : ∀ q, q ≠ p → Function.update s.vm p (.starting memory reserve s.reserves.length) q = s.vm q :=
    fun q hq => Function.update_of_ne hq ..
  have hvmp : Function.update s.vm p (.starting memory reserve s.reserves.length) p =
      .starting memory reserve s.reserves.length := Function.update_self ..
  refine ⟨fun q hq => ?_, fun q hq => ?_, fun q hq => ?_, fun q => ?_, fun r hr => ?_, fun q r n hq => ?_⟩
  · by_cases hqp : q = p
    · subst hqp
      exact hp
    · exact h.dirs q ((hvm q hqp) ▸ hq)
  · by_cases hqp : q = p
    · subst hqp
      change s.config q = .memory (Function.update s.vm q _ q).memory
      rw [hvmp]
      exact hc
    · change s.config q = .memory (Function.update s.vm p _ q).memory
      rw [hvm q hqp]
      exact h.config q ((hvm q hqp) ▸ hq)
  · by_cases hqp : q = p
    · subst hqp
      exact h.holder q hheld
    · change (Function.update s.start p _ q).holds = true at hq
      rw [hstart q hqp, h.not_holds hheld hqp] at hq
      cases hq
  · by_cases hqp : q = p
    · subst hqp
      change StartOk total _ q (Function.update s.start q _ q)
      rw [show Function.update s.start q Start.spawned q = .spawned from Function.update_self ..]
      trivial
    · exact (h.start q).of_not_holds (h.not_holds hheld hqp) (hstart q hqp) (hvm q hqp) rfl
  · obtain rfl := Option.some.inj (hhead.symm.trans hr)
    refine le_trans (State.running_eq (s := (s.setVm p _).setStart p .spawned) hp).le ?_
    have hothers : ∀ vm, (s.setVm p vm).others p ∅ = s.others p ∅ := by
      intro vm
      refine Finset.sum_congr rfl fun q hq => ?_
      exact congrArg VmRun.memory (Function.update_of_ne (Finset.mem_filter.mp hq).2.1 ..)
    change (s.setVm p _).others p ∅ + (Function.update s.vm p _ p).memory ≤ _
    rw [hothers, hvmp]
    exact hroom
  · by_cases hqp : q = p
    · subst hqp
      change (Function.update s.vm q _ q).admission = _ at hq
      rw [hvmp] at hq
      obtain ⟨rfl, rfl⟩ := Prod.mk.inj (Option.some.inj hq)
      obtain ⟨rs, hres⟩ := List.head?_eq_some_iff.mp hhead
      have hget : s.reserves[s.reserves.length - s.reserves.length]? = some reserve := by
        rw [Nat.sub_self, hres]
        rfl
      exact ⟨by rw [hres]; exact Nat.succ_pos _, le_refl _, hget⟩
    · change (Function.update s.vm p _ q).admission = _ at hq
      rw [hvm q hqp] at hq
      exact h.admission q r n hq

theorem Inv.setVm (h : Inv total s) {p : P} {vm : VmRun}
    (hvm : vm = .none ∨ s.vm p ≠ .none ∧ vm.memory = (s.vm p).memory ∧ vm.admission = (s.vm p).admission) :
    Inv total (s.setVm p vm) := by
  have hsame : Shrinks s s := .of_eq rfl rfl rfl rfl
  have hself : Function.update s.vm p vm p = vm := Function.update_self ..
  refine h.shrinks ⟨fun q => ?_, fun q hq => Or.inl hq, fun q hq => Or.inl hq, fun q => Or.inl rfl, rfl⟩ h.holder
    fun q => Or.inl rfl
  by_cases hqp : q = p
  · subst hqp
    change Function.update s.vm q vm q = .none ∨ s.vm q ≠ .none ∧ (Function.update s.vm q vm q).memory = _ ∧
      (Function.update s.vm q vm q).admission = _
    rw [hself]
    exact hvm
  · have hother : (s.setVm p vm).vm q = s.vm q := Function.update_of_ne hqp ..
    rw [hother]
    exact hsame.vm q

theorem Inv.step (h : Inv total s) {a : Action P} (hs : step total s a = some s') : Inv total s' := by
  cases a with
  | change p config directory => exact h.change hs
  | begin p memory => exact h.begin hs
  | acquire p limits host => exact h.acquire hs
  | readConfig p q => exact h.readConfig hs
  | probe p answer listed => exact h.probe hs
  | unlisted p => exact h.unlisted hs
  | decide p => exact h.decide hs
  | save p => exact h.save hs
  | spawn p => exact h.spawn hs
  | identify p =>
    obtain ⟨memory, reserve, number, hv, rfl⟩ := step_identify hs
    exact h.setVm (Or.inr ⟨by rw [hv]; nofun, by rw [hv]; rfl, by rw [hv]; rfl⟩)
  | release p =>
    obtain rfl := step_release hs
    exact h.unlock p
  | fail p =>
    obtain rfl := step_fail hs
    exact h.unlock p
  | stop p =>
    obtain rfl := step_stop hs
    exact h.setVm (Or.inl rfl)

theorem Initial.inv (h : Initial s) : Inv total s where
  dirs q hq := absurd (h.vm q) hq
  config q hq := absurd (h.vm q) hq
  holder p hp := by
    rw [h.start p] at hp
    cases hp
  start p := by
    rw [h.start p]
    trivial
  bound r hr := by
    rw [h.reserves] at hr
    cases hr
  admission p r n hp := by
    rw [h.vm p] at hp
    cases hp

theorem Reachable.inv (h : Reachable total s) : Inv total s :=
  h.induction (fun _ => Initial.inv) fun _ _ _ hi hs => hi.step hs

/-! ## No overcommit -/

/-- In every reachable state the VMs that run or are being started fit in the memory that the last admission did not
reserve; so they fit in what the admission of one of them did not reserve, as long as no later admission reserved less. -/
theorem no_overcommit (h : Reachable total s) {p : P} {reserve number : ℕ}
    (hp : (s.vm p).admission = some (reserve, number)) :
    (∀ q, s.vm q ≠ .none → q ∈ s.dirs ∧ s.config q = .memory (s.vm q).memory) ∧
    (∃ last, s.reserves.head? = some last ∧ s.running ≤ total - last) ∧
    ((∀ later ∈ s.reserves.take (s.reserves.length - number), reserve ≤ later) → s.running ≤ total - reserve) := by
  have hinv := h.inv
  obtain ⟨hpos, hle, hget⟩ := hinv.admission p reserve number hp
  refine ⟨fun q hq => ⟨hinv.dirs q hq, hinv.config q hq⟩, ?_, fun hlater => ?_⟩
  · cases hr : s.reserves with
    | nil =>
      rw [hr] at hle
      exact absurd (Nat.le_zero.mp hle) hpos.ne'
    | cons last rs => exact ⟨last, rfl, hinv.bound last (by rw [hr]; rfl)⟩
  · cases hr : s.reserves with
    | nil =>
      rw [hr] at hle
      exact absurd (Nat.le_zero.mp hle) hpos.ne'
    | cons last rs =>
      have hbound := hinv.bound last (by rw [hr]; rfl)
      rw [hr] at hlater hget
      refine hbound.trans (Nat.sub_le_sub_left ?_ total)
      cases hn : (last :: rs).length - number with
      | zero =>
        rw [hn] at hget
        exact (Option.some.inj hget).ge
      | succ n =>
        rw [hn] at hlater
        exact hlater last (List.mem_cons_self ..)

/-! ## A smaller reserve -/

def quietHost : HostRead := ⟨{}, .normal, 0, 1, .ac, none⟩

/-- The actions of a start of `p` that probes the one other profile. -/
def startOf (p : Bool) (memory reserve : ℕ) (others : List Bool) (answer : VmProcessState) : List (Action Bool) :=
  ([.begin p memory, .acquire p { memoryReserveMib := reserve } quietHost] : List (Action Bool)) ++
    (others.flatMap (fun q => [.readConfig p q, .probe p answer true]) : List (Action Bool)) ++
    ([.decide p, .save p, .spawn p, .identify p, .release p] : List (Action Bool))

def noProfiles : State Bool := ⟨∅, fun _ => .missing, fun _ => .none, fun _ => .idle, none, []⟩

/-- On a host of 2000 MiB a VM of 500 MiB is admitted with a reserve of 1000 MiB, and then one of 1500 MiB with none. -/
def secondReserve : Option (State Bool) :=
  Steps.run (step 2000) noProfiles (startOf false 500 1000 [] .stale ++ startOf true 1500 0 [false] .verified)

theorem secondReserve_reaches : ∃ s, Reachable 2000 s ∧ (s.vm false).admission = some (1000, 1) ∧ s.running = 2000 := by
  have h : (secondReserve.any fun s => (s.vm false).admission == some (1000, 1) && s.running == 2000) = true := by
    decide +kernel
  cases hs : secondReserve with
  | none =>
    rw [hs] at h
    cases h
  | some s =>
    rw [hs, Option.any_some, Bool.and_eq_true, beq_iff_eq, beq_iff_eq] at h
    exact ⟨s, ⟨noProfiles, _, ⟨fun _ => rfl, fun _ => rfl, rfl, rfl⟩, hs⟩, h.1, h.2⟩

/-- The bound of the admission of a VM does not hold for as long as it runs. -/
theorem not_bounded_by_own_reserve : ¬ ∀ s : State Bool, Reachable 2000 s → ∀ p reserve number,
    (s.vm p).admission = some (reserve, number) → s.running ≤ 2000 - reserve := by
  intro h
  obtain ⟨s, hr, ha, hrun⟩ := secondReserve_reaches
  have := h s hr false 1000 1 ha
  omega

/-- The last admission bounds the two VMs. -/
theorem no_overcommit_secondReserve : ∃ s : State Bool, Reachable 2000 s ∧
    ∃ last, s.reserves.head? = some last ∧ s.running ≤ 2000 - last := by
  obtain ⟨s, hr, ha, -⟩ := secondReserve_reaches
  exact ⟨s, hr, (no_overcommit hr ha).2.1⟩

end Hamn.Host.Admission
