import GTPower.CycleBounds
import GTPower.Scheduling

/-! The reports of both engines. Every toggle is booked for its gate and for its cycle; the bookings of a gate are
summed up over threads, slots and intervals, and its glitch parts are added to the whole ones, before the
gate is counted in a group and in the total. Times and energies are rationals here. -/
namespace GTPower

def Clock.hostNPeriod (clock : Clock) : Nat := (Rat.ceil (clock.maxTime * clock.vcdTimeScale / clock.clkPeriod)).toNat

def Clock.deviceNPeriod (clock : Clock) : Nat := ceilDiv clock.maxTime clock.vcdTimeUnitPerCycle

section Cells

structure CellKind where
  isMacro : Bool
  isMemory : Bool
  interfaceTiming : Bool
  isPad : Bool
  inClockNetwork : Bool
  hasSequentials : Bool

inductive PowerGroup where
  | macroCells
  | pad
  | clock
  | sequential
  | combinational
  deriving DecidableEq, Repr

def CellKind.group (cell : CellKind) : PowerGroup :=
  if cell.isMacro || cell.isMemory || cell.interfaceTiming then .macroCells
  else if cell.isPad then .pad
  else if cell.inClockNetwork then .clock
  else if cell.hasSequentials then .sequential
  else .combinational

/-- Powers of the cells in the order they are counted, of the groups and of all, and the waveforms of all cells. -/
structure EnergyReport where
  cells : List (Component → ℚ)
  groups : PowerGroup → Component → ℚ
  total : Component → ℚ
  waveform : Component → Nat → ℚ

namespace EnergyReport

def empty : EnergyReport := ⟨[], 0, 0, 0⟩

def incr (report : EnergyReport) (cell : CellKind) (power : Component → ℚ) : EnergyReport :=
  { report with
    cells := report.cells ++ [power]
    groups := Function.update report.groups cell.group (report.groups cell.group + power)
    total := report.total + power }

def addCell (report : EnergyReport) (cell : CellKind) (result : (Component → ℚ) × (Component → Nat → ℚ)) :
    EnergyReport :=
  { report.incr cell result.1 with waveform := report.waveform + result.2 }

end EnergyReport

/-- The glitch parts added to the whole powers. -/
def foldGlitch (power : Component → ℚ) : Component → ℚ
  | .internal => power .internal + power .glitchInternal
  | .switching => power .switching + power .glitchSwitching
  | component => power component

end Cells

section Host
variable (clock : Clock)

/-- What a toggle adds to the waveforms on the CPU, a glitch also to the whole. -/
def Contribution.waveforms (added : Contribution n) : Component → Nat → ℚ
  | .leakage => fun _ => 0
  | .internal => fun cycle =>
      if 0 < added.glitchScalingRatio then spread clock (added.glitchScalingRatio * added.internalEnergy) added.cycleIdx
        (some cycle)
      else spread clock added.internalEnergy added.cycleIdx (some cycle)
  | .glitchInternal => fun cycle =>
      if 0 < added.glitchScalingRatio then spread clock (added.glitchScalingRatio * added.internalEnergy) added.cycleIdx
        (some cycle)
      else 0
  | .switching => fun cycle =>
      if 0 < added.glitchScalingRatio then spread clock (added.glitchScalingRatio * added.switchingEnergy)
        added.cycleIdx (some cycle)
      else spread clock added.switchingEnergy added.cycleIdx (some cycle)
  | .glitchSwitching => fun cycle =>
      if 0 < added.glitchScalingRatio then spread clock (added.glitchScalingRatio * added.switchingEnergy)
        added.cycleIdx (some cycle)
      else 0

def HostRun.powers (run : HostRun n) : Component → ℚ
  | .leakage => run.leakage clock
  | component => dynamicPowers clock run.contributions component none

def HostRun.waveforms (run : HostRun n) : Component → Nat → ℚ
  | .leakage => fun cycle =>
      ((run.windows.flatMap (hostPerCycleLeakage clock)).map fun addition =>
        if addition.1 = cycle then addition.2 else 0).sum
  | component => fun cycle => (run.contributions.map fun added => added.waveforms clock component cycle).sum

structure HostInst (κ α : Type) where
  n : Nat
  gate : HostGate κ α n
  cell : CellKind

variable {κ α : Type}

def timeBasedPower (inst : HostInst κ α) : Option ((Component → ℚ) × (Component → Nat → ℚ)) :=
  (inst.gate.findTimeBasedAllPower clock).map fun run => (foldGlitch (run.powers clock), run.waveforms clock)

/-- The cells of some instances with what they add. -/
def cellResults (insts : List (HostInst κ α)) : Option (List (CellKind × (Component → ℚ) × (Component → Nat → ℚ))) :=
  insts.mapM fun inst => (timeBasedPower clock inst).map fun result => (inst.cell, result)

def hostReport (insts : List (HostInst κ α)) : Option EnergyReport :=
  (cellResults clock insts).map fun results =>
    results.foldl (fun report result => report.addCell result.1 result.2) .empty

/-- The instances of a thread: the first ones get one more each. -/
def perThreadInstances {ι : Type} (nThread : Nat) (instances : List ι) (tId : Nat) : List ι :=
  let base := instances.length / nThread
  let remainder := instances.length % nThread
  (instances.drop (tId * base + min tId remainder)).take (base + if tId < remainder then 1 else 0)

/-- The waveforms of a thread added up to the size of a waveform. -/
def mergeWaveforms (report : EnergyReport) (results : List (CellKind × (Component → ℚ) × (Component → Nat → ℚ))) :
    EnergyReport :=
  { report with waveform := fun component cycle =>
      if cycle < clock.hostNPeriod then report.waveform component cycle +
        (results.map fun result => result.2.2 component cycle).sum
      else report.waveform component cycle }

/-- A thread merged into the report: its waveforms, then its cells. -/
def mergeThread (report : EnergyReport) (results : List (CellKind × (Component → ℚ) × (Component → Nat → ℚ))) :
    EnergyReport :=
  results.foldl (fun report result => report.incr result.1 result.2.1) (mergeWaveforms clock report results)

/-- The report of several threads over shuffled instances. -/
def hostReportMultiThreaded (nThread : Nat) (shuffled : List (HostInst κ α)) : Option EnergyReport :=
  ((List.range nThread).mapM fun tId => cellResults clock (perThreadInstances nThread shuffled tId)).map
    fun perThread =>
    perThread.foldl (mergeThread clock) .empty

end Host

section Device
variable (clock : Clock)

structure DeviceInst where
  n : Nat
  gate : Gate n
  cell : CellKind
  slices : Nat → Slice n

/-- How an interval is shared out among threads. -/
structure Launch where
  basis : PartitionBasis
  nEventPerThread : Nat
  nThreadPerBlock : Nat

namespace DeviceInst
variable (launch : Launch) (inst : DeviceInst) (interval : Nat)

def sliceGate : Gate inst.n := inst.gate.onSlice (inst.slices interval)

def threadCount : Nat :=
  match launch.basis with
  | .event => eventThreadCount (inst.sliceGate interval) launch.nEventPerThread
  | .cycle => cycleThreadCount (inst.sliceGate interval) (inst.slices interval).periods

/-- What the threads of the fused kernel leave in an interval. -/
def threads : Option (List (ThreadResult inst.n)) :=
  match launch.basis with
  | .event => runEventBasis (inst.sliceGate interval) (inst.slices interval).events clock (inst.slices interval).periods
      launch.nEventPerThread
  | .cycle => runCycleBasis (inst.sliceGate interval) (inst.slices interval).events clock (inst.slices interval).periods

end DeviceInst

/-- The results of the instances and the arrays per cycle between two intervals. -/
structure DeviceState where
  instToRes : Nat → Component → ℚ
  perCycle : Component → Nat → ℚ

variable (launch : Launch) (insts : List DeviceInst)

def threadCounts (interval : Nat) : List Nat := insts.map fun inst => inst.threadCount launch interval

/-- A launched thread adds to the arrays per cycle. -/
def addCycles (table : LaunchTable) (nThreadPerBlock : Nat) (value : Nat → Nat → PowerResult)
    (perCycle : Component → Nat → ℚ) (launched : Nat × Nat) : Component → Nat → ℚ :=
  match threadOfLaunch table nThreadPerBlock launched.1 launched.2 with
  | none => perCycle
  | some (gateIdx, thread) => perCycle + fun component cycle => value gateIdx thread component (some cycle)

/-- One interval: the launched threads in some order, the slots merged, the results recorded. -/
def runInterval (uninitialized : Nat → Nat) (order : Nat → List (Nat × Nat)) (st : DeviceState) (interval : Nat) :
    Option DeviceState :=
  (insts.mapM fun (inst : DeviceInst) => (inst.threads clock launch interval).map fun threads =>
      threads.map fun thread => threadPowers clock [thread]).map fun results =>
    let value : Nat → Nat → PowerResult := fun gateIdx thread => (results.getD gateIdx []).getD thread 0
    let table := launchTable launch.nThreadPerBlock (threadCounts launch insts interval) uninitialized
    let slots := (order interval).foldl (runLaunch table launch.nThreadPerBlock launch.nThreadPerBlock
      fun gateIdx thread component => value gateIdx thread component none) fun _ => 0
    { instToRes := fun gateIdx => st.instToRes gateIdx +
        foldGlitch (kernel2MergeAllPowerResult launch.nThreadPerBlock slots gateIdx)
      perCycle := (order interval).foldl (addCycles table launch.nThreadPerBlock value) st.perCycle }

/-- The last step: the cells counted and the waveforms copied. -/
def finalizeResult (st : DeviceState) : EnergyReport :=
  { (insts.zipIdx.foldl (fun report inst => report.incr inst.1.cell (st.instToRes inst.2)) EnergyReport.empty) with
    waveform := fun component cycle =>
      if cycle < clock.deviceNPeriod then foldGlitch (fun component => st.perCycle component cycle) component else 0 }

def deviceReport (uninitialized : Nat → Nat) (order : Nat → List (Nat × Nat)) (nInterval : Nat) : Option EnergyReport :=
  ((List.range nInterval).foldlM (runInterval clock launch insts uninitialized order) ⟨0, 0⟩).map
    (finalizeResult clock insts)

end Device

section Books

structure Booking where
  glitchScalingRatio : ℚ
  cycleIdx : Nat
  internalEnergy : ℚ
  switchingEnergy : ℚ
  deriving DecidableEq

def Contribution.booking (added : Contribution n) : Booking :=
  ⟨added.glitchScalingRatio, added.cycleIdx, added.internalEnergy, added.switchingEnergy⟩

namespace Booking
variable (clock : Clock) (booking : Booking)

def energy : Component → ℚ
  | .leakage => 0
  | .internal => if 0 < booking.glitchScalingRatio then booking.glitchScalingRatio * booking.internalEnergy
      else booking.internalEnergy
  | .glitchInternal => if 0 < booking.glitchScalingRatio then booking.glitchScalingRatio * booking.internalEnergy else 0
  | .switching => if 0 < booking.glitchScalingRatio then booking.glitchScalingRatio * booking.switchingEnergy
      else booking.switchingEnergy
  | .glitchSwitching => if 0 < booking.glitchScalingRatio then booking.glitchScalingRatio *
    booking.switchingEnergy else 0

def power (component : Component) (entry : Option Nat) : ℚ :=
  spread clock (booking.energy component) booking.cycleIdx entry

end Booking

/-- Power of the toggles that are no glitches. -/
def regularPower (clock : Clock) (bookings : List Booking) (energy : Booking → ℚ) (entry : Option Nat) : ℚ :=
  ((bookings.filter fun booking => ¬ 0 < booking.glitchScalingRatio).map fun booking =>
    spread clock (energy booking) booking.cycleIdx entry).sum

/-- Toggles of an instance in a run on the CPU. -/
def HostInst.bookings (clock : Clock) (inst : HostInst κ α) : List Booking :=
  ((inst.gate.findTimeBasedAllPower clock).map fun run => run.contributions.map Contribution.booking).getD []

def DeviceInst.bookings (clock : Clock) (launch : Launch) (nInterval : Nat) (inst : DeviceInst) : List Booking :=
  (List.range nInterval).flatMap fun interval => ((inst.threads clock launch interval).map fun threads =>
    threads.flatMap fun thread => thread.contributions.map Contribution.booking).getD []

/-- Reports of the engines, with the sizes of their waveforms and the toggles of the cells. -/
inductive Reported (clock : Clock) : EnergyReport → Nat → List (List Booking) → Prop
  | cpu {κ α : Type} (insts : List (HostInst κ α)) (ran : hostReport clock insts = some report) :
      Reported clock report clock.hostNPeriod (insts.map (HostInst.bookings clock))
  | cpuThreads {κ α : Type} (shuffled : List (HostInst κ α)) (positive : 0 < nThread)
      (ran : hostReportMultiThreaded clock nThread shuffled = some report) :
      Reported clock report clock.hostNPeriod (shuffled.map (HostInst.bookings clock))
  | gpu (insts : List DeviceInst) (launch : Launch) (positive : 0 < launch.nThreadPerBlock)
      (uninitialized : Nat → Nat) (order : Nat → List (Nat × Nat))
      (launched : ∀ interval < nInterval, (order interval).Perm
        (launches (nBlock launch.nThreadPerBlock (threadCounts launch insts interval)) launch.nThreadPerBlock))
      (ran : deviceReport clock launch insts uninitialized order nInterval = some report) :
      Reported clock report clock.deviceNPeriod (insts.map (DeviceInst.bookings clock launch nInterval))

/-- The energies of the cells are those of the cycles, the parts that are no glitches make up the differences, and the
total is that of the cells and of the groups. -/
structure EnergyReport.Conserves (clock : Clock) (report : EnergyReport) (nPeriod : Nat)
    (bookings : List (List Booking)) : Prop where
  energy : ∀ component ≠ .leakage, (report.cells.map fun power => power component).sum *
    (clock.maxTime * clock.vcdTimeScale) =
    ∑ cycle ∈ Finset.range nPeriod, report.waveform component cycle * clock.clkPeriod
  cells : List.Forall₂ (fun power toggles =>
    power .internal - power .glitchInternal = regularPower clock toggles Booking.internalEnergy none ∧
    power .switching - power .glitchSwitching = regularPower clock toggles Booking.switchingEnergy none)
      report.cells bookings
  cycles : ∀ cycle < nPeriod,
    report.waveform .internal cycle - report.waveform .glitchInternal cycle =
      regularPower clock bookings.flatten Booking.internalEnergy (some cycle) ∧
    report.waveform .switching cycle - report.waveform .glitchSwitching cycle =
      regularPower clock bookings.flatten Booking.switchingEnergy (some cycle)
  total : ∀ component, report.total component = (report.cells.map fun power => power component).sum
  groups : ∀ component, report.total component = report.groups .macroCells component + report.groups .pad component +
    report.groups .clock component + report.groups .sequential component + report.groups .combinational component
  ordered : (∀ toggles ∈ bookings, ∀ booking ∈ toggles, ¬ 0 < booking.glitchScalingRatio →
      0 ≤ booking.internalEnergy ∧ 0 ≤ booking.switchingEnergy) →
    (report.total .glitchInternal ≤ report.total .internal ∧ report.total .glitchSwitching ≤ report.total .switching) ∧
    (∀ power ∈ report.cells, power .glitchInternal ≤ power .internal ∧ power .glitchSwitching ≤ power .switching) ∧
    ∀ cycle < nPeriod, report.waveform .glitchInternal cycle ≤ report.waveform .internal cycle ∧
      report.waveform .glitchSwitching cycle ≤ report.waveform .switching cycle

end Books

section Bookings
variable {clock : Clock}

theorem spread_zero (clock : Clock) (cycleIdx : Nat) (entry : Option Nat) : spread clock 0 cycleIdx entry = 0 := by
  cases entry <;> simp [spread]

theorem spread_sub (clock : Clock) (a b : ℚ) (cycleIdx : Nat) (entry : Option Nat) :
    spread clock (a - b) cycleIdx entry = spread clock a cycleIdx entry - spread clock b cycleIdx entry := by
  cases entry with
  | none => exact sub_mul ..
  | some cycle =>
    simp only [spread]
    split
    · exact sub_mul ..
    · exact (sub_zero 0).symm

theorem spread_nonneg (clock : Clock) (nonneg : 0 ≤ a) (cycleIdx : Nat) (entry : Option Nat) :
    0 ≤ spread clock a cycleIdx entry := by
  have period := clock.clkPeriod_pos
  have tick := clock.vcdTimeScale_pos
  cases entry with
  | none =>
    simp only [spread]
    positivity
  | some cycle =>
    simp only [spread]
    split
    · positivity
    · exact le_refl 0

/-- The power of a gate over the dump and the powers of the cycles hold the same energy. -/
theorem spread_balanced (clock : Clock) (energy : ℚ) (positive : 0 < clock.maxTime) (inside : cycleIdx < nPeriod) :
    spread clock energy cycleIdx none * (clock.maxTime * clock.vcdTimeScale) =
      ∑ cycle ∈ Finset.range nPeriod, spread clock energy cycleIdx (some cycle) * clock.clkPeriod := by
  have period : clock.clkPeriod ≠ 0 := ne_of_gt clock.clkPeriod_pos
  have dump : (clock.maxTime : ℚ) * clock.vcdTimeScale ≠ 0 :=
    ne_of_gt (mul_pos (Nat.cast_pos.mpr positive) clock.vcdTimeScale_pos)
  have each : ∀ cycle, spread clock energy cycleIdx (some cycle) * clock.clkPeriod = if cycle = cycleIdx then energy
    else 0 := by
    intro cycle
    simp only [spread]
    split
    · rw [mul_assoc,one_div_mul_cancel period,mul_one]
    · exact zero_mul _
  simp only [each,Finset.sum_ite_eq',Finset.mem_range,if_pos inside]
  rw [spread,mul_assoc,one_div_mul_cancel dump,mul_one]

theorem foldGlitch_powers (clock : Clock) (added : Contribution n) (entry : Option Nat) :
    foldGlitch (fun component => added.powers clock component entry) = fun component =>
    added.booking.power clock component entry := by
  funext component
  by_cases glitch : 0 < added.glitchScalingRatio
  · cases component <;> simp [foldGlitch,Contribution.powers,Contribution.booking,Booking.power,Booking.energy,glitch,
      spread_zero]
  · cases component <;> simp [foldGlitch,Contribution.powers,Contribution.booking,Booking.power,Booking.energy,glitch,
      spread_zero]

theorem waveforms_booking (clock : Clock) (added : Contribution n) (component : Component) (cycle : Nat) :
    added.waveforms clock component cycle = added.booking.power clock component (some cycle) := by
  by_cases glitch : 0 < added.glitchScalingRatio
  · cases component <;> simp [Contribution.waveforms,Contribution.booking,Booking.power,Booking.energy,glitch,
      spread_zero]
  · cases component <;> simp [Contribution.waveforms,Contribution.booking,Booking.power,Booking.energy,glitch,
      spread_zero]

/-- Bookings of one part less those of its glitch part are those that are no glitches. -/
theorem sum_power_sub (clock : Clock) (bookings : List Booking) (energy : Booking → ℚ) (entry : Option Nat)
    {whole glitch : Component}
    (differ : ∀ booking : Booking, booking.energy whole - booking.energy glitch =
      if 0 < booking.glitchScalingRatio then 0 else energy booking) :
    (bookings.map fun booking => booking.power clock whole entry).sum -
    (bookings.map fun booking => booking.power clock glitch entry).sum =
      regularPower clock bookings energy entry := by
  induction bookings with
  | nil => exact sub_zero _
  | cons booking rest ih =>
    have here : booking.power clock whole entry - booking.power clock glitch entry =
        if 0 < booking.glitchScalingRatio then 0 else spread clock (energy booking) booking.cycleIdx entry := by
      rw [Booking.power,Booking.power,← spread_sub,differ]
      split
      · exact spread_zero ..
      · rfl
    rw [List.map_cons,List.map_cons,List.sum_cons,List.sum_cons,add_sub_add_comm,ih,here,regularPower,regularPower]
    by_cases spurious : 0 < booking.glitchScalingRatio
    · rw [if_pos spurious,zero_add,List.filter_cons_of_neg (by simpa using spurious)]
    · rw [if_neg spurious,List.filter_cons_of_pos (by simpa using spurious),List.map_cons,List.sum_cons]

theorem internal_differ (booking : Booking) : booking.energy .internal - booking.energy .glitchInternal =
    if 0 < booking.glitchScalingRatio then 0 else booking.internalEnergy := by
  simp only [Booking.energy]
  split <;> simp

theorem switching_differ (booking : Booking) : booking.energy .switching - booking.energy .glitchSwitching =
    if 0 < booking.glitchScalingRatio then 0 else booking.switchingEnergy := by
  simp only [Booking.energy]
  split <;> simp

theorem regularPower_nonneg (clock : Clock) (entry : Option Nat)
    (nonneg : ∀ booking ∈ bookings, ¬ 0 < booking.glitchScalingRatio → 0 ≤ energy booking) :
    0 ≤ regularPower clock bookings energy entry := by
  refine List.sum_nonneg fun power mem => ?_
  obtain ⟨booking, kept, rfl⟩ := List.mem_map.mp mem
  obtain ⟨mem, regular⟩ := List.mem_filter.mp kept
  exact spread_nonneg clock (nonneg booking mem (by simpa using regular)) _ _

end Bookings

section Conserves
variable {clock : Clock} {report : EnergyReport} {bookings : List (List Booking)}

/-- The total of a report is that of its cells and that of its groups. -/
structure EnergyReport.Totalled (report : EnergyReport) : Prop where
  total : ∀ component, report.total component = (report.cells.map fun power => power component).sum
  groups : ∀ component, report.total component = report.groups .macroCells component + report.groups .pad component +
    report.groups .clock component + report.groups .sequential component + report.groups .combinational component

theorem EnergyReport.totalled_empty : EnergyReport.empty.Totalled where
  total _ := rfl
  groups _ := by simp [empty]

theorem EnergyReport.Totalled.incr (totalled : report.Totalled) (cell : CellKind) (power : Component → ℚ) :
    (report.incr cell power).Totalled where
  total component := by
    simp only [EnergyReport.incr,Pi.add_apply,List.map_append,List.map_cons,List.map_nil,List.sum_append,
      List.sum_singleton,
      totalled.total component]
  groups component := by
    simp only [EnergyReport.incr,Pi.add_apply,totalled.groups component]
    cases cell.group <;> simp [Function.update] <;> ring

theorem EnergyReport.Totalled.withWaveform (totalled : report.Totalled) (waveform : Component → Nat → ℚ) :
    ({ report with waveform } : EnergyReport).Totalled := ⟨totalled.total, totalled.groups⟩

structure EnergyReport.Holds (clock : Clock) (report : EnergyReport) (nPeriod : Nat) (bookings : List (List Booking)) :
    Prop where
  totalled : report.Totalled
  cells : List.Forall₂ (fun power toggles => ∀ component ≠ .leakage,
    power component = (toggles.map fun booking : Booking => booking.power clock component none).sum)
      report.cells bookings
  cycles : ∀ component ≠ .leakage, ∀ cycle < nPeriod, report.waveform component cycle =
    (bookings.flatten.map fun booking => booking.power clock component (some cycle)).sum

theorem EnergyReport.Holds.sum_cells (holds : report.Holds clock nPeriod bookings) (dynamic : component ≠ .leakage) :
    (report.cells.map fun power => power component).sum =
      (bookings.flatten.map fun booking => booking.power clock component none).sum := by
  have summed : ∀ {cells : List (Component → ℚ)} {bookings : List (List Booking)},
      List.Forall₂ (fun power toggles => ∀ component ≠ .leakage,
        power component = (toggles.map fun booking : Booking => booking.power clock component none).sum)
          cells bookings →
      (cells.map fun power => power component).sum =
        (bookings.flatten.map fun booking => booking.power clock component none).sum := by
    intro cells bookings booked
    induction booked with
    | nil => rfl
    | cons here _ ih =>
      rw [List.map_cons,List.sum_cons,here component dynamic,ih,List.flatten_cons,List.map_append,List.sum_append]
  exact summed holds.cells

theorem sum_power_balanced (clock : Clock) (positive : 0 < clock.maxTime) (component : Component)
    {toggles : List Booking} (inside : ∀ booking ∈ toggles, booking.cycleIdx < nPeriod) :
    (toggles.map fun booking => booking.power clock component none).sum * (clock.maxTime * clock.vcdTimeScale) =
      ∑ cycle ∈ Finset.range nPeriod, (toggles.map fun booking => booking.power clock component (some cycle)).sum *
        clock.clkPeriod := by
  induction toggles with
  | nil => simp
  | cons booking rest ih =>
    have here : booking.power clock component none * (clock.maxTime * clock.vcdTimeScale) =
        ∑ cycle ∈ Finset.range nPeriod, booking.power clock component (some cycle) * clock.clkPeriod :=
      spread_balanced clock _ positive (inside booking (List.mem_cons_self ..))
    simp only [List.map_cons,List.sum_cons,add_mul,Finset.sum_add_distrib]
    rw [here,ih fun other mem => inside other (List.mem_cons_of_mem _ mem)]

theorem EnergyReport.Holds.conserves (holds : report.Holds clock nPeriod bookings)
    (empty : clock.maxTime = 0 → nPeriod = 0)
    (inside : ∀ toggles ∈ bookings, ∀ booking ∈ toggles, booking.cycleIdx < nPeriod) :
    report.Conserves clock nPeriod bookings := by
  have cells : List.Forall₂ (fun power toggles =>
      power .internal - power .glitchInternal = regularPower clock toggles Booking.internalEnergy none ∧
      power .switching - power .glitchSwitching = regularPower clock toggles Booking.switchingEnergy none) report.cells
        bookings := by
    refine holds.cells.imp fun power toggles booked => ?_
    rw [booked .internal (by decide),booked .glitchInternal (by decide),booked .switching (by decide),
      booked .glitchSwitching (by decide)]
    exact ⟨sum_power_sub clock toggles _ none internal_differ, sum_power_sub clock toggles _ none switching_differ⟩
  have cycles : ∀ cycle < nPeriod,
      report.waveform .internal cycle - report.waveform .glitchInternal cycle =
        regularPower clock bookings.flatten Booking.internalEnergy (some cycle) ∧
      report.waveform .switching cycle - report.waveform .glitchSwitching cycle =
        regularPower clock bookings.flatten Booking.switchingEnergy (some cycle) := by
    intro cycle below
    rw [holds.cycles .internal (by decide) cycle below,holds.cycles .glitchInternal (by decide) cycle below,
      holds.cycles .switching (by decide) cycle below,holds.cycles .glitchSwitching (by decide) cycle below]
    exact ⟨sum_power_sub clock _ _ _ internal_differ, sum_power_sub clock _ _ _ switching_differ⟩
  refine ⟨fun component dynamic => ?_, cells, cycles, holds.totalled.total, holds.totalled.groups, fun nonneg => ?_⟩
  · have below : ∀ booking ∈ bookings.flatten, booking.cycleIdx < nPeriod := by
      intro booking mem
      obtain ⟨toggles, there, mem⟩ := List.mem_flatten.mp mem
      exact inside toggles there booking mem
    rw [holds.sum_cells dynamic]
    rcases Nat.eq_zero_or_pos clock.maxTime with ends | positive
    · rw [empty ends,ends]
      simp
    · rw [sum_power_balanced clock positive component below]
      exact Finset.sum_congr rfl fun cycle mem => by rw [holds.cycles component dynamic cycle (Finset.mem_range.mp mem)]
  · have each : ∀ power ∈ report.cells, power .glitchInternal ≤ power .internal ∧
      power .glitchSwitching ≤ power .switching := by
      intro power mem
      obtain ⟨toggles, there, internal, switching⟩ : ∃ toggles ∈ bookings,
          power .internal - power .glitchInternal = regularPower clock toggles Booking.internalEnergy none ∧
          power .switching - power .glitchSwitching = regularPower clock toggles Booking.switchingEnergy none := by
        obtain ⟨k, inside, rfl⟩ := List.mem_iff_getElem.mp mem
        have same := cells.length_eq
        exact ⟨bookings[k], List.getElem_mem (same ▸ inside),
          (List.forall₂_iff_get.mp cells).2 k inside (same ▸ inside)⟩
      have regular := regularPower_nonneg clock none fun booking mem regular =>
        (nonneg toggles there booking mem regular).1
      have regular' := regularPower_nonneg clock none fun booking mem regular =>
        (nonneg toggles there booking mem regular).2
      constructor
      · linarith
      · linarith
    refine ⟨?_, each, fun cycle below => ?_⟩
    · simp only [holds.totalled.total]
      exact ⟨List.sum_le_sum fun power mem => (each power mem).1, List.sum_le_sum fun power mem => (each power mem).2⟩
    · obtain ⟨internal, switching⟩ := cycles cycle below
      have all : ∀ booking ∈ bookings.flatten, ¬ 0 < booking.glitchScalingRatio →
          0 ≤ booking.internalEnergy ∧ 0 ≤ booking.switchingEnergy := by
        intro booking mem
        obtain ⟨toggles, there, mem⟩ := List.mem_flatten.mp mem
        exact nonneg toggles there booking mem
      have regular := regularPower_nonneg clock (some cycle) fun booking mem regular => (all booking mem regular).1
      have regular' := regularPower_nonneg clock (some cycle) fun booking mem regular => (all booking mem regular).2
      constructor
      · linarith
      · linarith

end Conserves

section HostReports
variable {clock : Clock} {κ α : Type}

theorem foldGlitch_add (a b : Component → ℚ) : foldGlitch (a + b) = foldGlitch a + foldGlitch b := by
  funext component
  cases component <;> simp [foldGlitch] <;> ring

theorem foldGlitch_zero : foldGlitch 0 = 0 := by
  funext component
  cases component <;> simp [foldGlitch]

/-- Dynamic powers of contributions, with the glitch parts added to the whole ones. -/
theorem foldGlitch_dynamicPowers (clock : Clock) (contributions : List (Contribution n)) (entry : Option Nat) :
    foldGlitch (fun component => dynamicPowers clock contributions component entry) =
      fun component => ((contributions.map Contribution.booking).map fun booking =>
        booking.power clock component entry).sum := by
  induction contributions with
  | nil => exact foldGlitch_zero
  | cons added rest ih =>
    have split : (fun component => dynamicPowers clock (added :: rest) component entry) =
        (fun component => added.powers clock component entry) + fun component =>
          dynamicPowers clock rest component entry := by
      funext component
      simp [dynamicPowers]
    rw [split,foldGlitch_add,ih,foldGlitch_powers]
    funext component
    simp

theorem foldGlitch_congr {a b : Component → ℚ} (same : ∀ component ≠ .leakage, a component = b component)
    (dynamic : component ≠ .leakage) :
    foldGlitch a component = foldGlitch b component := by
  have internal := same .internal (by decide)
  have glitchInternal := same .glitchInternal (by decide)
  have switching := same .switching (by decide)
  have glitchSwitching := same .glitchSwitching (by decide)
  cases component with
  | leakage => exact absurd rfl dynamic
  | internal => simp only [foldGlitch,internal,glitchInternal]
  | glitchInternal => exact glitchInternal
  | switching => simp only [foldGlitch,switching,glitchSwitching]
  | glitchSwitching => exact glitchSwitching

theorem timeBasedPower_bookings {inst : HostInst κ α} (ran : timeBasedPower clock inst = some result)
    (dynamic : component ≠ .leakage) :
    result.1 component = ((inst.bookings clock).map fun booking => booking.power clock component none).sum ∧
    ∀ cycle, result.2 component cycle =
    ((inst.bookings clock).map fun booking => booking.power clock component (some cycle)).sum := by
  obtain ⟨run, found, rfl⟩ := Option.map_eq_some_iff.mp ran
  have books : inst.bookings clock = run.contributions.map Contribution.booking := by
    rw [HostInst.bookings,found]
    rfl
  rw [books]
  constructor
  · rw [← congrFun (foldGlitch_dynamicPowers clock run.contributions none) component]
    refine foldGlitch_congr (fun component dynamic => ?_) dynamic
    cases component with
    | leakage => exact absurd rfl dynamic
    | internal => rfl
    | glitchInternal => rfl
    | switching => rfl
    | glitchSwitching => rfl
  · intro cycle
    rw [List.map_map]
    have waves : run.waveforms clock component cycle =
      (run.contributions.map fun added => added.waveforms clock component cycle).sum := by
      cases component with
      | leakage => exact absurd rfl dynamic
      | internal => rfl
      | glitchInternal => rfl
      | switching => rfl
      | glitchSwitching => rfl
    exact waves.trans (congrArg List.sum (List.map_congr_left fun added _ =>
      waveforms_booking clock added component cycle))

theorem foldl_incr {ι : Type} (cell : ι → CellKind) (power : ι → Component → ℚ) (l : List ι) (report : EnergyReport) :
    (l.foldl (fun report x => report.incr (cell x) (power x)) report).cells = report.cells ++ l.map power ∧
    (l.foldl (fun report x => report.incr (cell x) (power x)) report).waveform = report.waveform ∧
    (report.Totalled → (l.foldl (fun report x => report.incr (cell x) (power x)) report).Totalled) := by
  induction l generalizing report with
  | nil => exact ⟨(List.append_nil _).symm, rfl, fun totalled => totalled⟩
  | cons x rest ih =>
    obtain ⟨cells, waveform, totalled⟩ := ih (report.incr (cell x) (power x))
    rw [List.foldl_cons]
    refine ⟨?_, waveform, fun whole => totalled (whole.incr _ _)⟩
    rw [cells,List.map_cons]
    exact List.append_assoc ..

theorem foldl_addCell (results : List (CellKind × (Component → ℚ) × (Component → Nat → ℚ))) (report : EnergyReport) :
    let final := results.foldl (fun report result => report.addCell result.1 result.2) report
    final.cells = report.cells ++ results.map (fun result => result.2.1) ∧
    (∀ component cycle, final.waveform component cycle =
      report.waveform component cycle + (results.map fun result => result.2.2 component cycle).sum) ∧
    (report.Totalled → final.Totalled) := by
  induction results generalizing report with
  | nil => exact ⟨(List.append_nil _).symm, fun _ _ => (add_zero _).symm, fun totalled => totalled⟩
  | cons result rest ih =>
    obtain ⟨cells, waveform, totalled⟩ := ih (report.addCell result.1 result.2)
    refine ⟨?_, fun component cycle => ?_, fun whole => totalled ((whole.incr _ _).withWaveform _)⟩
    · rw [List.foldl_cons,cells,List.map_cons]
      exact List.append_assoc ..
    · rw [List.foldl_cons,waveform,List.map_cons,List.sum_cons,← add_assoc]
      rfl

theorem cellResults_spec {insts : List (HostInst κ α)} (ran : cellResults clock insts = some results) :
    List.Forall₂ (fun power toggles => ∀ component ≠ .leakage,
      power component = (toggles.map fun booking : Booking => booking.power clock component none).sum)
      (results.map fun result => result.2.1) (insts.map (HostInst.bookings clock)) ∧
    ∀ component ≠ .leakage, ∀ cycle, (results.map fun result => result.2.2 component cycle).sum =
      ((insts.map (HostInst.bookings clock)).flatten.map fun booking =>
        booking.power clock component (some cycle)).sum := by
  have found := HostGate.mapM_eq_some_iff.mp ran
  clear ran
  induction found with
  | nil => exact ⟨.nil, fun _ _ _ => rfl⟩
  | cons here _ ih =>
    obtain ⟨result, computed, rfl⟩ := Option.map_eq_some_iff.mp here
    obtain ⟨powers, waves⟩ := ih
    refine ⟨.cons (fun component dynamic => (timeBasedPower_bookings computed dynamic).1) powers,
      fun component dynamic cycle => ?_⟩
    rw [List.map_cons,List.sum_cons,waves component dynamic cycle,(timeBasedPower_bookings computed dynamic).2 cycle,
      List.map_cons,
      List.flatten_cons,List.map_append,List.sum_append]

theorem hostReport_holds {insts : List (HostInst κ α)} (ran : hostReport clock insts = some report) (nPeriod : Nat) :
    report.Holds clock nPeriod (insts.map (HostInst.bookings clock)) := by
  obtain ⟨results, found, rfl⟩ := Option.map_eq_some_iff.mp ran
  obtain ⟨powers, waves⟩ := cellResults_spec found
  obtain ⟨cells, waveform, totalled⟩ := foldl_addCell results .empty
  refine ⟨totalled EnergyReport.totalled_empty, ?_, fun component dynamic cycle _ => ?_⟩
  · rw [cells]
    exact powers
  · rw [waveform,waves component dynamic cycle]
    exact zero_add _

theorem flatMap_between {ι : Type} (l : List ι) (place : Nat → Nat) (onward : ∀ t, place t ≤ place (t + 1))
    (first : place 0 = 0) (count : Nat) :
    (List.range count).flatMap (fun t => (l.drop (place t)).take (place (t + 1) - place t)) = l.take (place count) := by
  induction count with
  | zero => simp [first]
  | succ count ih =>
    have joint : place (count + 1) = place count + (place (count + 1) - place count) := by
      have := onward count
      omega
    rw [List.range_succ,List.flatMap_append,ih,List.flatMap_singleton,joint,List.take_add,← joint]

theorem perThreadInstances_flatMap {ι : Type} (instances : List ι) (positive : 0 < nThread) :
    (List.range nThread).flatMap (perThreadInstances nThread instances) = instances := by
  have remains := Nat.mod_lt instances.length positive
  have whole := Nat.div_add_mod instances.length nThread
  have cut : perThreadInstances nThread instances = fun t => (instances.drop (t * (instances.length / nThread) +
      min t (instances.length % nThread))).take (instances.length / nThread + if t < instances.length % nThread then 1
        else 0) := rfl
  revert cut remains whole
  generalize instances.length / nThread = base
  generalize instances.length % nThread = remainder
  intro remains whole cut
  have next : ∀ t, (t + 1) * base + min (t + 1) remainder = t * base + min t remainder +
    (base + if t < remainder then 1 else 0) := by
    intro t
    rw [Nat.succ_mul]
    split <;> omega
  have parts := flatMap_between instances (fun t => t * base + min t remainder) (fun t => by rw [next]; omega)
    (by simp) nThread
  have last : nThread * base + min nThread remainder = instances.length := by omega
  rw [last,List.take_length] at parts
  simp only [next,Nat.add_sub_cancel_left] at parts
  rw [cut]
  exact parts

theorem mapM_flatMap {ι β γ : Type} {l : List ι} {f : ι → List β} {g : β → Option γ} {r : List (List γ)}
    (ran : l.mapM (fun i => (f i).mapM g) = some r) : (l.flatMap f).mapM g = some r.flatten := by
  have found := HostGate.mapM_eq_some_iff.mp ran
  clear ran
  rw [HostGate.mapM_eq_some_iff]
  induction found with
  | nil => exact .nil
  | cons here _ ih =>
    rw [List.flatMap_cons,List.flatten_cons]
    exact List.rel_append (HostGate.mapM_eq_some_iff.mp here) ih

theorem foldl_mergeThread (clock : Clock) (perThread : List (List (CellKind × (Component → ℚ) × (Component → Nat → ℚ))))
    (report : EnergyReport) :
    let final := perThread.foldl (mergeThread clock) report
    final.cells = report.cells ++ perThread.flatten.map (fun result => result.2.1) ∧
    (∀ component, ∀ cycle < clock.hostNPeriod, final.waveform component cycle =
      report.waveform component cycle + (perThread.flatten.map fun result => result.2.2 component cycle).sum) ∧
    (report.Totalled → final.Totalled) := by
  induction perThread generalizing report with
  | nil => exact ⟨(List.append_nil _).symm, fun _ _ _ => (add_zero _).symm, fun totalled => totalled⟩
  | cons results rest ih =>
    obtain ⟨cells, waveform, totalled⟩ := ih (mergeThread clock report results)
    obtain ⟨counted, kept, whole⟩ :=
      foldl_incr (fun result : CellKind × (Component → ℚ) × (Component → Nat → ℚ) => result.1)
      (fun result => result.2.1) results (mergeWaveforms clock report results)
    refine ⟨?_, fun component cycle below => ?_, fun totals => totalled (whole (totals.withWaveform _))⟩
    · rw [List.foldl_cons,cells,mergeThread,counted,List.flatten_cons,List.map_append,List.append_assoc]
      rfl
    · rw [List.foldl_cons,waveform component cycle below,mergeThread,kept,List.flatten_cons,List.map_append,
        List.sum_append,← add_assoc]
      exact congrArg (· + _) (if_pos below)

theorem hostReportMultiThreaded_holds {shuffled : List (HostInst κ α)} (positive : 0 < nThread)
    (ran : hostReportMultiThreaded clock nThread shuffled = some report) :
    report.Holds clock clock.hostNPeriod (shuffled.map (HostInst.bookings clock)) := by
  obtain ⟨perThread, found, rfl⟩ := Option.map_eq_some_iff.mp ran
  have all : cellResults clock shuffled = some perThread.flatten := by
    have parts := mapM_flatMap found
    rw [perThreadInstances_flatMap shuffled positive] at parts
    exact parts
  obtain ⟨powers, waves⟩ := cellResults_spec all
  obtain ⟨cells, waveform, totalled⟩ := foldl_mergeThread clock perThread .empty
  refine ⟨totalled EnergyReport.totalled_empty, ?_, fun component dynamic cycle below => ?_⟩
  · rw [cells]
    exact powers
  · rw [waveform component cycle below,waves component dynamic cycle]
    exact zero_add _

end HostReports

section DeviceReports
variable {clock : Clock} {launch : Launch} {insts : List DeviceInst}

def DeviceInst.intervalBookings (clock : Clock) (launch : Launch) (interval : Nat) (inst : DeviceInst) : List Booking :=
  ((inst.threads clock launch interval).map fun threads =>
    threads.flatMap fun thread => thread.contributions.map Contribution.booking).getD []

theorem threads_length {inst : DeviceInst} {threads : List (ThreadResult inst.n)}
    (ran : inst.threads clock launch interval = some threads) : threads.length = inst.threadCount launch interval := by
  have counted : ∀ {count : Nat} {run : Nat → Option (ThreadResult inst.n)},
      (List.range count).mapM run = some threads → threads.length = count := by
    intro count run found
    rw [← (HostGate.mapM_eq_some_iff.mp found).length_eq,List.length_range]
  simp only [DeviceInst.threads,DeviceInst.threadCount] at ran ⊢
  cases basis : launch.basis with
  | event =>
    simp only [basis] at ran
    exact counted ran
  | cycle =>
    simp only [basis] at ran
    exact counted ran

theorem threadPowers_dynamic (clock : Clock) (thread : ThreadResult n) (dynamic : component ≠ .leakage)
    (entry : Option Nat) :
    threadPowers clock [thread] component entry = dynamicPowers clock thread.contributions component entry := by
  rw [threadPowers,Pi.add_apply,Pi.add_apply,leakagePowers_of_dynamic _ dynamic,add_zero,List.flatMap_singleton]

theorem sum_threadPowers (clock : Clock) (threads : List (ThreadResult n)) (dynamic : component ≠ .leakage)
    (entry : Option Nat) :
    (threads.map fun thread => threadPowers clock [thread] component entry).sum =
      dynamicPowers clock (threads.flatMap ThreadResult.contributions) component entry := by
  induction threads with
  | nil => rfl
  | cons thread rest ih =>
    rw [List.map_cons,List.sum_cons,ih,threadPowers_dynamic clock thread dynamic,List.flatMap_cons,dynamicPowers,
      dynamicPowers,dynamicPowers,
      List.map_append,List.sum_append]
    rfl

theorem foldGlitch_threads {inst : DeviceInst} {threads : List (ThreadResult inst.n)}
    (ran : inst.threads clock launch interval = some threads) (entry : Option Nat) (dynamic : component ≠ .leakage) :
    foldGlitch (fun component => (threads.map fun thread => threadPowers clock [thread] component entry).sum)
    component =
      ((inst.intervalBookings clock launch interval).map fun booking => booking.power clock component entry).sum := by
  rw [foldGlitch_congr (fun component dynamic => sum_threadPowers clock threads dynamic entry) dynamic,
    foldGlitch_dynamicPowers,
    DeviceInst.intervalBookings,ran]
  dsimp only
  rw [List.map_flatMap]
  rfl

theorem map_range_getD {ι β : Type*} (l : List ι) (other : ι) (f : ι → β) :
    (List.range l.length).map (fun k => f (l.getD k other)) = l.map f := by
  refine List.ext_getElem (by simp) fun k inside inside' => ?_
  have small : k < l.length := by simpa using inside'
  simp [List.getElem?_eq_getElem small]

theorem map_gateThreads {β : Type*} (results : List (List PowerResult)) (f : PowerResult → β) :
    (gateThreads (results.map List.length)).map (fun thread => f ((results.getD thread.1 []).getD thread.2 0)) =
      results.flatten.map f := by
  rw [gateThreads,List.map_flatMap,List.length_map]
  have each : ∀ gateIdx, ((List.range ((results.map List.length).getD gateIdx 0)).map fun thread =>
    (gateIdx, thread)).map
      (fun thread => f ((results.getD thread.1 []).getD thread.2 0)) = (results.getD gateIdx []).map f := by
    intro gateIdx
    have count : (results.map List.length).getD gateIdx 0 = (results.getD gateIdx []).length := by
      rw [List.getD_eq_getElem?_getD,List.getElem?_map,List.getD_eq_getElem?_getD]
      cases results[gateIdx]? <;> rfl
    rw [List.map_map,count]
    exact map_range_getD (results.getD gateIdx []) 0 f
  simp only [each]
  rw [List.flatMap,map_range_getD results [] fun threads => threads.map f,List.map_flatten]

/-- The launched threads add to the arrays per cycle what the threads of the gates have. -/
theorem foldl_addCycles (positive : 0 < nThreadPerBlock) (order : List (Nat × Nat)) (value : Nat → Nat → PowerResult)
    (perm : order.Perm (launches (nBlock nThreadPerBlock counts) nThreadPerBlock)) (perCycle : Component → Nat → ℚ) :
    order.foldl (addCycles (launchTable nThreadPerBlock counts uninitialized) nThreadPerBlock value) perCycle =
      perCycle + ((gateThreads counts).map fun thread => fun component cycle =>
        value thread.1 thread.2 component (some cycle)).sum := by
  have added : ∀ (order : List (Nat × Nat)) (perCycle : Component → Nat → ℚ),
      order.foldl (addCycles (launchTable nThreadPerBlock counts uninitialized) nThreadPerBlock value) perCycle =
        perCycle + ((order.filterMap fun launched =>
          threadOfLaunch (launchTable nThreadPerBlock counts uninitialized) nThreadPerBlock
          launched.1 launched.2).map fun thread => fun component cycle =>
            value thread.1 thread.2 component (some cycle)).sum := by
    intro order
    induction order with
    | nil => exact fun perCycle => (add_zero perCycle).symm
    | cons launched rest ih =>
      intro perCycle
      rw [List.foldl_cons,ih,addCycles]
      cases passes : threadOfLaunch (launchTable nThreadPerBlock counts uninitialized) nThreadPerBlock launched.1
        launched.2 with
      | none => rw [List.filterMap_cons_none (by exact passes)]
      | some thread =>
        rw [List.filterMap_cons_some (by exact passes),List.map_cons,List.sum_cons,← add_assoc]
  rw [added,(((perm.filterMap _).trans (ran_perm positive)).map _).sum_eq]

theorem sum_map_apply {ι κ β : Type*} [AddCommMonoid β] (l : List ι) (f : ι → κ → β) (k : κ) :
    (l.map f).sum k = (l.map fun x => f x k).sum := by
  induction l with
  | nil => rfl
  | cons x rest ih => rw [List.map_cons,List.sum_cons,Pi.add_apply,ih,List.map_cons,List.sum_cons]

theorem foldGlitch_flatten {results : List (List PowerResult)}
    (each : List.Forall₂ (fun (inst : DeviceInst) result => (inst.threads clock launch interval).map
      (fun threads => threads.map fun thread => threadPowers clock [thread]) = some result) insts results)
    (entry : Option Nat) (dynamic : component ≠ .leakage) :
    foldGlitch (fun component => (results.flatten.map fun powers => powers component entry).sum) component =
      ((insts.flatMap (DeviceInst.intervalBookings clock launch interval)).map fun booking =>
        booking.power clock component entry).sum := by
  induction each with
  | nil => exact congrFun foldGlitch_zero component
  | cons here _ ih =>
    rename_i inst result restInsts restResults _
    obtain ⟨threads, run, rfl⟩ := Option.map_eq_some_iff.mp here
    have split : (fun component => (((threads.map fun thread => threadPowers clock [thread]) :: restResults).flatten.map
          fun powers => powers component entry).sum) =
        (fun component => (threads.map fun thread => threadPowers clock [thread] component entry).sum) +
          fun component => (restResults.flatten.map fun powers => powers component entry).sum := by
      funext component
      rw [List.flatten_cons,List.map_append,List.sum_append,List.map_map]
      rfl
    rw [split,foldGlitch_add,Pi.add_apply,ih,foldGlitch_threads run entry dynamic,List.flatMap_cons,List.map_append,
      List.sum_append]

theorem runInterval_spec (positive : 0 < launch.nThreadPerBlock) (perm : (order interval).Perm
      (launches (nBlock launch.nThreadPerBlock (threadCounts launch insts interval)) launch.nThreadPerBlock))
    (ran : runInterval clock launch insts uninitialized order st interval = some after)
    (dynamic : component ≠ .leakage) :
    (∀ gateIdx inst, insts[gateIdx]? = some inst → after.instToRes gateIdx component = st.instToRes gateIdx component +
      ((inst.intervalBookings clock launch interval).map fun booking => booking.power clock component none).sum) ∧
    ∀ cycle, foldGlitch (fun component => after.perCycle component cycle) component =
      foldGlitch (fun component => st.perCycle component cycle) component +
      ((insts.flatMap (DeviceInst.intervalBookings clock launch interval)).map fun booking =>
        booking.power clock component (some cycle)).sum := by
  obtain ⟨results, found, rfl⟩ := Option.map_eq_some_iff.mp ran
  have each := HostGate.mapM_eq_some_iff.mp found
  have counts : threadCounts launch insts interval = results.map List.length := by
    rw [threadCounts]
    clear found ran perm
    induction each with
    | nil => rfl
    | cons here _ ih =>
      obtain ⟨threads, run, rfl⟩ := Option.map_eq_some_iff.mp here
      rw [List.map_cons,List.map_cons,ih,List.length_map,threads_length run]
  rw [counts] at perm
  constructor
  · intro gateIdx inst there
    obtain ⟨inside, rfl⟩ := List.getElem?_eq_some_iff.mp there
    have inside' : gateIdx < results.length := each.length_eq ▸ inside
    obtain ⟨threads, run, same⟩ := Option.map_eq_some_iff.mp ((List.forall₂_iff_get.mp each).2 gateIdx inside inside')
    have slot : results.getD gateIdx [] = threads.map fun thread => threadPowers clock [thread] := by
      rw [List.getD_eq_getElem?_getD,List.getElem?_eq_getElem inside',Option.getD_some]
      exact same.symm
    have count : (results.map List.length).getD gateIdx 0 = (results.getD gateIdx []).length := by
      rw [List.getD_eq_getElem?_getD,List.getElem?_map,List.getD_eq_getElem?_getD,List.getElem?_eq_getElem inside']
      rfl
    dsimp only
    rw [counts,kernel2_order positive _ perm (by rw [List.length_map]; exact inside'),count,
      map_range_getD (results.getD gateIdx []) 0 fun (powers : PowerResult) (component : Component) =>
        powers component none,slot,
      Pi.add_apply]
    refine congrArg (_ + ·) ((congrArg (foldGlitch · component) (funext fun component => ?_)).trans
      (foldGlitch_threads run none dynamic))
    rw [sum_map_apply,List.map_map]
    rfl
  · intro cycle
    dsimp only
    rw [counts,foldl_addCycles positive _ _ perm,
      map_gateThreads results fun (powers : PowerResult) (component : Component) (cycle : Nat) =>
        powers component (some cycle),
      ← foldGlitch_flatten each (some cycle) dynamic,← Pi.add_apply,← foldGlitch_add]
    congr 1
    funext component
    simp only [Pi.add_apply,sum_map_apply]

theorem sum_flatMap_append {ι β : Type*} (l : List ι) (f g : ι → List β) (p : β → ℚ) :
    ((l.flatMap fun x => f x ++ g x).map p).sum = ((l.flatMap f).map p).sum + ((l.flatMap g).map p).sum := by
  induction l with
  | nil => exact (add_zero 0).symm
  | cons x rest ih =>
    simp only [List.flatMap_cons,List.map_append,List.sum_append,ih]
    ring

theorem runIntervals_spec (positive : 0 < launch.nThreadPerBlock) (intervals : List Nat)
    (launched : ∀ interval ∈ intervals, (order interval).Perm
      (launches (nBlock launch.nThreadPerBlock (threadCounts launch insts interval)) launch.nThreadPerBlock))
    (ran : intervals.foldlM (runInterval clock launch insts uninitialized order) st = some final)
    (dynamic : component ≠ .leakage) :
    (∀ gateIdx inst, insts[gateIdx]? = some inst → final.instToRes gateIdx component = st.instToRes gateIdx component +
      ((intervals.flatMap fun interval => inst.intervalBookings clock launch interval).map fun booking =>
        booking.power clock component none).sum) ∧
    ∀ cycle, foldGlitch (fun component => final.perCycle component cycle) component =
      foldGlitch (fun component => st.perCycle component cycle) component +
      ((insts.flatMap fun inst => intervals.flatMap fun interval => inst.intervalBookings clock launch interval).map
        fun booking =>
        booking.power clock component (some cycle)).sum := by
  induction intervals generalizing st with
  | nil =>
    obtain rfl := Option.some.inj ran
    refine ⟨fun _ _ _ => (add_zero _).symm, fun cycle => ?_⟩
    have none : (insts.flatMap fun inst => ([] : List Nat).flatMap fun interval =>
      inst.intervalBookings clock launch interval) = [] :=
      List.flatMap_eq_nil_iff.mpr fun _ _ => rfl
    rw [none,List.map_nil,List.sum_nil,add_zero]
  | cons interval rest ih =>
    rw [List.foldlM_cons] at ran
    obtain ⟨after, step, ran⟩ := Option.bind_eq_some_iff.mp ran
    obtain ⟨results, cycles⟩ := runInterval_spec positive (launched interval (List.mem_cons_self ..)) step dynamic
    obtain ⟨results', cycles'⟩ := ih (fun other mem => launched other (List.mem_cons_of_mem _ mem)) ran
    refine ⟨fun gateIdx inst there => ?_, fun cycle => ?_⟩
    · rw [results' gateIdx inst there,results gateIdx inst there,List.flatMap_cons,List.map_append,
        List.sum_append,add_assoc]
    · rw [cycles',cycles,add_assoc]
      refine congrArg (_ + ·) ?_
      simp only [List.flatMap_cons]
      exact (sum_flatMap_append insts _ _ _).symm

theorem deviceReport_holds (positive : 0 < launch.nThreadPerBlock)
    (launched : ∀ interval < nInterval, (order interval).Perm
      (launches (nBlock launch.nThreadPerBlock (threadCounts launch insts interval)) launch.nThreadPerBlock))
    (ran : deviceReport clock launch insts uninitialized order nInterval = some report) :
    report.Holds clock clock.deviceNPeriod (insts.map (DeviceInst.bookings clock launch nInterval)) := by
  obtain ⟨final, run, rfl⟩ := Option.map_eq_some_iff.mp ran
  have spec := fun component (dynamic : component ≠ .leakage) =>
    @runIntervals_spec clock launch insts order uninitialized ⟨0, 0⟩ final component positive (List.range nInterval)
      (fun interval mem => launched interval (List.mem_range.mp mem)) run dynamic
  obtain ⟨cells, -, totalled⟩ :=
    foldl_incr (fun inst : DeviceInst × Nat => inst.1.cell) (fun inst => final.instToRes inst.2)
    insts.zipIdx .empty
  refine ⟨(totalled EnergyReport.totalled_empty).withWaveform _, ?_, fun component dynamic cycle below => ?_⟩
  · change List.Forall₂ _ (List.foldl _ EnergyReport.empty insts.zipIdx).cells _
    rw [cells]
    change List.Forall₂ _ (insts.zipIdx.map fun inst => final.instToRes inst.2) _
    rw [List.forall₂_iff_get]
    refine ⟨by simp, fun gateIdx inside inside' component dynamic => ?_⟩
    have small : gateIdx < insts.length := by simpa using inside'
    simp only [List.get_eq_getElem,List.getElem_map,List.getElem_zipIdx,Nat.zero_add]
    rw [(spec component dynamic).1 gateIdx insts[gateIdx] (List.getElem?_eq_getElem small)]
    exact zero_add _
  · have cycles := (spec component dynamic).2 cycle
    rw [finalizeResult]
    dsimp only
    rw [if_pos below,cycles,← List.flatMap]
    exact (congrArg (· + _) (congrFun foldGlitch_zero component)).trans (zero_add _)

end DeviceReports

section Results
variable {clock : Clock}

/-- With all cycles inside the waveforms, every report of either engine conserves the energy. -/
theorem energy_conserved (reported : Reported clock report nPeriod bookings)
    (inside : ∀ toggles ∈ bookings, ∀ booking ∈ toggles, booking.cycleIdx < nPeriod) :
    report.Conserves clock nPeriod bookings := by
  have hostEmpty : clock.maxTime = 0 → clock.hostNPeriod = 0 := by
    intro ends
    rw [Clock.hostNPeriod,ends,Nat.cast_zero,zero_mul,zero_div]
    rfl
  have deviceEmpty : clock.maxTime = 0 → clock.deviceNPeriod = 0 := by
    intro ends
    rw [Clock.deviceNPeriod,ends,ceilDiv,Nat.zero_add]
    exact Nat.div_eq_of_lt (Nat.sub_lt clock.vcdTimeUnitPerCycle_pos Nat.one_pos)
  cases reported with
  | cpu insts ran => exact (hostReport_holds ran _).conserves hostEmpty inside
  | cpuThreads shuffled positive ran => exact (hostReportMultiThreaded_holds positive ran).conserves hostEmpty inside
  | gpu insts launch positive uninitialized order launched ran =>
    exact (deviceReport_holds positive launched ran).conserves deviceEmpty inside

end Results

section Examples

def plainCell : CellKind := ⟨false, false, false, false, false, false⟩

def pairInst : HostInst Unit Unit := ⟨2, HostGate.cpuPair, plainCell⟩

def twoCycleInst : DeviceInst := ⟨2, twoCycleGate, plainCell, fun _ => twoCycleSlice⟩

/-- A gate and its copy on a single thread, on two, and a gate on the device. -/
theorem energy_conserved_pair : ∃ single threads device,
    hostReport (tenTickClock 18) [pairInst, pairInst] = some single ∧
    hostReportMultiThreaded (tenTickClock 18) 2 [pairInst, pairInst] = some threads ∧
    deviceReport (tenTickClock 18) ⟨.cycle, 1, 2⟩ [twoCycleInst] (fun _ => 0) (fun _ => launches 1 2) 1 = some device ∧
    single.Conserves (tenTickClock 18) 2 ([pairInst, pairInst].map (HostInst.bookings (tenTickClock 18))) ∧
    threads.Conserves (tenTickClock 18) 2 ([pairInst, pairInst].map (HostInst.bookings (tenTickClock 18))) ∧
    device.Conserves (tenTickClock 18) 2
    ([twoCycleInst].map (DeviceInst.bookings (tenTickClock 18) ⟨.cycle, 1, 2⟩ 1)) := by
  have host : (tenTickClock 18).hostNPeriod = 2 := by decide +kernel
  have onDevice : (tenTickClock 18).deviceNPeriod = 2 := by decide +kernel
  obtain ⟨single, ran⟩ := Option.isSome_iff_exists.mp
    (show (hostReport (tenTickClock 18) [pairInst, pairInst]).isSome by decide +kernel)
  obtain ⟨threads, ran'⟩ := Option.isSome_iff_exists.mp
    (show (hostReportMultiThreaded (tenTickClock 18) 2 [pairInst, pairInst]).isSome by decide +kernel)
  obtain ⟨device, ran''⟩ := Option.isSome_iff_exists.mp
    (show (deviceReport (tenTickClock 18) ⟨.cycle, 1, 2⟩ [twoCycleInst] (fun _ => 0) (fun _ =>
      launches 1 2) 1).isSome by decide +kernel)
  have blocks : nBlock 2 (threadCounts ⟨.cycle, 1, 2⟩ [twoCycleInst] 0) = 1 := by decide +kernel
  have launched : ∀ interval < 1, (launches 1 2).Perm
      (launches (nBlock 2 (threadCounts ⟨.cycle, 1, 2⟩ [twoCycleInst] interval)) 2) := by
    intro interval first
    obtain rfl : interval = 0 := by omega
    rw [blocks]
  have reported := Reported.gpu [twoCycleInst] ⟨.cycle, 1, 2⟩ (by decide) (fun _ => 0) (fun _ =>
    launches 1 2) launched ran''
  refine ⟨single, threads, device, ran, ran', ran'', ?_, ?_, ?_⟩
  · exact energy_conserved (host ▸ Reported.cpu _ ran) (by decide +kernel)
  · exact energy_conserved (host ▸ Reported.cpuThreads _ (by decide) ran') (by decide +kernel)
  · exact energy_conserved (onDevice ▸ reported) (by decide +kernel)

def returningInst : HostInst Unit Unit :=
  ⟨1, { HostGate.bare 1 (fun _ => [⟨0, some .zero, 0, 1⟩, ⟨5, some .one, 0, 1⟩]) with
    internalPwrs := fun _ => [⟨none, none, (), ()⟩]
    power := fun _ _ _ => -1 }, plainCell⟩

/-- Its internal power is below its glitch internal power, which is 0. -/
theorem internal_below_glitch : ∃ report, hostReport (tenTickClock 18) [returningInst] = some report ∧
    (∀ booking ∈ returningInst.bookings (tenTickClock 18), booking.cycleIdx < (tenTickClock 18).hostNPeriod) ∧
    report.total .internal < report.total .glitchInternal := by
  have less : (hostReport (tenTickClock 18) [returningInst]).any fun report =>
    report.total .internal < report.total .glitchInternal := by
    decide +kernel
  obtain ⟨report, ran, less⟩ := (Option.any_eq_true _ _).mp less
  exact ⟨report, ran, by decide +kernel, of_decide_eq_true less⟩

end Examples
end GTPower
