import GTPower.EnergyReports

/-! The results handed to a power run, which need not come fresh. The run clears them, sets up the waveforms of the
whole design and adds to what is there. -/
namespace GTPower.ResultReuse

section Result

/-- Average power of each period. -/
structure PowerClkedWaveform where
  period : ℚ
  waveform : List ℚ

/-- Five powers, and for each of them a map from instances to waveforms. -/
structure PowerResult (ι : Type) where
  power : Component → ℚ
  instToPowerClkedWaveformMap : Component → ι → Option PowerClkedWaveform

namespace PowerResult
variable {ι : Type}

def fresh : PowerResult ι := ⟨0, fun _ _ => none⟩

/-- The glitch parts and the maps stay. -/
def clear (result : PowerResult ι) : PowerResult ι :=
  { result with power := fun
    | .internal => 0
    | .switching => 0
    | .leakage => 0
    | .glitchInternal => result.power .glitchInternal
    | .glitchSwitching => result.power .glitchSwitching }

/-- Waveforms of the other result are inserted where there is none. -/
def incr (result other : PowerResult ι) : PowerResult ι where
  power := result.power + other.power
  instToPowerClkedWaveformMap := fun component inst =>
    (result.instToPowerClkedWaveformMap component inst).or (other.instToPowerClkedWaveformMap component inst)

section Waveforms
variable [DecidableEq ι]

/-- `emplace`: a waveform that is there stays. -/
def initPowerClkedWaveform (component : Component) (inst : ι) (clkPeriod : ℚ) (nPeriod : Nat) (result : PowerResult ι) :
    PowerResult ι :=
  { result with
    instToPowerClkedWaveformMap := Function.update result.instToPowerClkedWaveformMap component
      (Function.update (result.instToPowerClkedWaveformMap component) inst
        ((result.instToPowerClkedWaveformMap component inst).or (some ⟨clkPeriod, List.replicate nPeriod 0⟩))) }

def initLeakagePowerClkedWaveform : ι → ℚ → Nat → PowerResult ι → PowerResult ι := initPowerClkedWaveform .leakage

def initInternalPowerClkedWaveform : ι → ℚ → Nat → PowerResult ι → PowerResult ι := initPowerClkedWaveform .internal

def initGlitchInternalPowerClkedWaveform : ι → ℚ → Nat → PowerResult ι → PowerResult ι :=
  initPowerClkedWaveform .glitchInternal

def initSwitchingPowerClkedWaveform : ι → ℚ → Nat → PowerResult ι → PowerResult ι := initPowerClkedWaveform .switching

def initGlitchSwitchingPowerClkedWaveform : ι → ℚ → Nat → PowerResult ι → PowerResult ι :=
  initPowerClkedWaveform .glitchSwitching

/-- The five waveforms of the top instance, in the order of both engines. -/
def initWaveforms (top : ι) (clkPeriod : ℚ) (nPeriod : Nat) (result : PowerResult ι) : PowerResult ι :=
  initGlitchSwitchingPowerClkedWaveform top clkPeriod nPeriod <|
    initSwitchingPowerClkedWaveform top clkPeriod nPeriod <|
    initGlitchInternalPowerClkedWaveform top clkPeriod nPeriod <|
      initInternalPowerClkedWaveform top clkPeriod nPeriod <|
      initLeakagePowerClkedWaveform top clkPeriod nPeriod result

/-- `waveform()[cycleIdx] += value` for the waveform of an instance. No waveform throws, and no cycle is added behind
its end. -/
def addAt (inst : ι) (result : PowerResult ι) (added : Component × Nat × ℚ) : Option (PowerResult ι) :=
  (result.instToPowerClkedWaveformMap added.1 inst).bind fun clked =>
    if added.2.1 < clked.waveform.length then
      some { result with
        instToPowerClkedWaveformMap := Function.update result.instToPowerClkedWaveformMap added.1
          (Function.update (result.instToPowerClkedWaveformMap added.1) inst
            (some { clked with waveform := clked.waveform.modify added.2.1 (· + added.2.2) })) }
    else none

def waveformAt (result : PowerResult ι) (component : Component) (inst : ι) (cycle : Nat) : ℚ :=
  (((result.instToPowerClkedWaveformMap component inst).map PowerClkedWaveform.waveform).getD []).getD cycle 0

end Waveforms

/-- The same of what is read of two results. The period of a waveform is stored only. -/
structure Same (result other : PowerResult ι) : Prop where
  power : result.power = other.power
  waveform : ∀ component inst, (result.instToPowerClkedWaveformMap component inst).map PowerClkedWaveform.waveform =
    (other.instToPowerClkedWaveformMap component inst).map PowerClkedWaveform.waveform

end PowerResult

structure Results (ι : Type) where
  total : PowerResult ι
  groups : PowerGroup → PowerResult ι

namespace Results
variable {ι : Type}

def fresh : Results ι := ⟨.fresh, fun _ => .fresh⟩

def clear (results : Results ι) : Results ι := ⟨results.total.clear, fun group => (results.groups group).clear⟩

/-- An instance counted in its group and in the total. -/
def count (results : Results ι) (cell : CellKind) (instPower : PowerResult ι) : Results ι where
  total := results.total.incr instPower
  groups := Function.update results.groups cell.group ((results.groups cell.group).incr instPower)

def initWaveforms [DecidableEq ι] (top : ι) (clkPeriod : ℚ) (nPeriod : Nat) (results : Results ι) : Results ι :=
  { results with total := results.total.initWaveforms top clkPeriod nPeriod }

/-- The same is left in all six results. -/
structure Same (results other : Results ι) : Prop where
  total : results.total.Same other.total
  groups : ∀ group, (results.groups group).Same (other.groups group)

/-- Glitch parts of 0, and no waveforms but waveforms of zeros of the whole design, as long as they are set up. -/
structure Clean (top : ι) (nPeriod : Nat) (results : Results ι) : Prop where
  glitch : ∀ component, component = .glitchInternal ∨ component = .glitchSwitching →
    results.total.power component = 0 ∧ ∀ group, (results.groups group).power component = 0
  groups : ∀ group component inst, (results.groups group).instToPowerClkedWaveformMap component inst = none
  others : ∀ component inst, inst ≠ top → results.total.instToPowerClkedWaveformMap component inst = none
  zeros : ∀ component clked, results.total.instToPowerClkedWaveformMap component top = some clked →
    clked.waveform = List.replicate nPeriod 0

end Results
end Result

section Host
variable {ι κ α : Type} [DecidableEq ι] (clock : Clock) (top : ι)

/-- What an event adds to the waveforms on the CPU: an output that rises its switching power, every pin its internal
power, a glitch also to the glitch parts. -/
def eventAdditions (gate : HostGate κ α n) (added : Contribution n) : List (Component × Nat × ℚ) :=
  let glitch := 0 < added.glitchScalingRatio
  let switching := if glitch then added.glitchScalingRatio * added.switchingEnergy else added.switchingEnergy
  let internal := if glitch then added.glitchScalingRatio * added.internalEnergy else added.internalEnergy
  (if gate.nInputPin ≤ added.pin.val ∧ 0 < hostNRise added.oldVal added.newVal then
    (.switching, added.cycleIdx, switching / clock.clkPeriod) ::
      if glitch then [(.glitchSwitching, added.cycleIdx, switching / clock.clkPeriod)] else []
  else []) ++
    (.internal, added.cycleIdx, internal / clock.clkPeriod) ::
      if glitch then [(.glitchInternal, added.cycleIdx, internal / clock.clkPeriod)] else []

/-- All additions of a gate to the waveforms of the total. -/
def additions (gate : HostGate κ α n) (run : HostRun n) : List (Component × Nat × ℚ) :=
  (run.windows.flatMap (hostPerCycleLeakage clock)).map (fun addition => (.leakage, addition)) ++
    run.contributions.flatMap (eventAdditions clock gate)

/-- Result of an instance, and the total with its waveforms added. -/
def timeBasedPower (inst : HostInst κ α) (totalResult : PowerResult ι) : Option (PowerResult ι × PowerResult ι) :=
  (inst.gate.findTimeBasedAllPower clock).bind fun run =>
    ((additions clock inst.gate run).foldlM (PowerResult.addAt top) totalResult).map fun totalResult =>
      ({ PowerResult.fresh with power := foldGlitch (run.powers clock) }, totalResult)

def countTimeBased (results : Results ι) (inst : HostInst κ α) : Option (Results ι) :=
  (timeBasedPower clock top inst results.total).map fun (instPower, total) =>
    { results with total }.count inst.cell instPower

/-- A thread: its total and the results of its gates. -/
def threadJob (instances : List (HostInst κ α)) : Option (PowerResult ι × List (PowerResult ι)) :=
  instances.foldlM (fun thread inst => (timeBasedPower clock top inst thread.1).map fun (instPower, total) =>
    (total, thread.2 ++ [instPower])) (PowerResult.fresh.initWaveforms top clock.clkPeriod clock.hostNPeriod, [])

/-- The waveforms of a thread, cycle by cycle. -/
def mergeAdditions (threadTotal : PowerResult ι) : List (Component × Nat × ℚ) :=
  (List.range clock.hostNPeriod).flatMap fun cycle =>
    [.leakage, .internal, .glitchInternal, .switching, .glitchSwitching].map fun component =>
      (component, cycle, threadTotal.waveformAt component top cycle)

/-- A thread merged into the results: its waveforms, then its gates. -/
def mergeThread (results : Results ι) (thread : List (HostInst κ α) × PowerResult ι × List (PowerResult ι)) :
    Option (Results ι) :=
  ((mergeAdditions clock top thread.2.1).foldlM (PowerResult.addAt top) results.total).map fun total =>
    (thread.1.zip thread.2.2).foldl (fun results gate => results.count gate.1.cell gate.2) { results with total }

/-- How the CPU goes over the instances. The average power of an instance does not depend on the results. -/
inductive HostMode (κ α : Type) where
  | average (instPower : HostInst κ α → Component → ℚ)
  | timeBased
  | multiThreaded (nThread : Nat)

def power (mode : HostMode κ α) (instances : List (HostInst κ α)) (results : Results ι) : Option (Results ι) :=
  let results := results.clear.initWaveforms top clock.clkPeriod clock.hostNPeriod
  match mode with
  | .average instPower =>
    some (instances.foldl (fun results inst =>
      results.count inst.cell { PowerResult.fresh with power := instPower inst }) results)
  | .timeBased => instances.foldlM (countTimeBased clock top) results
  | .multiThreaded nThread =>
    ((List.range nThread).mapM fun tId =>
      let instances := perThreadInstances nThread instances tId
      (threadJob clock top instances).map fun thread => (instances, thread)).bind fun threads =>
        threads.foldlM (mergeThread clock top) results

end Host

section Device
variable {ι : Type} [DecidableEq ι] (clock : Clock) (top : ι) (insts : List DeviceInst)

/-- The arrays per cycle copied into the waveforms, the glitch parts also into the whole. -/
def copyAdditions (st : DeviceState) : List (Component × Nat × ℚ) :=
  (List.range clock.deviceNPeriod).flatMap fun cycle =>
    [.leakage, .internal, .glitchInternal, .switching, .glitchSwitching].map fun component =>
      (component, cycle, foldGlitch (fun component => st.perCycle component cycle) component)

def finalizeResult (st : DeviceState) (results : Results ι) : Option (Results ι) :=
  let results := insts.zipIdx.foldl (fun results inst =>
    results.count inst.1.cell { PowerResult.fresh with power := st.instToRes inst.2 }) results
  let results := results.initWaveforms top clock.clkPeriod clock.deviceNPeriod
  ((copyAdditions clock st).foldlM (PowerResult.addAt top) results.total).map fun total => { results with total }

def cudaPower (launch : Launch) (uninitialized : Nat → Nat) (order : Nat → List (Nat × Nat)) (nInterval : Nat)
    (results : Results ι) : Option (Results ι) :=
  ((List.range nInterval).foldlM (runInterval clock launch insts uninitialized order) ⟨0, 0⟩).bind fun st =>
    finalizeResult clock top insts st results.clear

end Device

/-- What a run adds to its results, whatever they hold: it is undefined, or the powers and the amounts of the cycles, of
which it reaches all below `reach`. -/
structure Effect where
  defined : Prop
  total : Component → ℚ
  groups : PowerGroup → Component → ℚ
  waveform : Component → Nat → ℚ
  reach : Component → Nat

section Effects
variable {ι : Type} [DecidableEq ι] {top : ι}

def size (top : ι) (results : Results ι) (component : Component) : Nat :=
  ((results.total.instToPowerClkedWaveformMap component top).map fun clked => clked.waveform.length).getD 0

namespace Effect

def addWaveform (amount : Nat → ℚ) (clked : PowerClkedWaveform) : PowerClkedWaveform :=
  { clked with waveform := clked.waveform.mapIdx fun cycle value => value + amount cycle }

def apply (top : ι) (effect : Effect) (results : Results ι) : Results ι where
  total :=
    { power := results.total.power + effect.total
      instToPowerClkedWaveformMap := fun component inst =>
        if inst = top then (results.total.instToPowerClkedWaveformMap component inst).map
          (addWaveform (effect.waveform component))
        else results.total.instToPowerClkedWaveformMap component inst }
  groups := fun group => { results.groups group with power := (results.groups group).power + effect.groups group }

def Fits (top : ι) (effect : Effect) (results : Results ι) : Prop :=
  effect.defined ∧ ∀ component, effect.reach component ≤ size top results component

def Adds (top : ι) (effect : Effect) (step : Results ι → Option (Results ι)) : Prop :=
  ∀ results left, step results = some left ↔ effect.Fits top results ∧ left = effect.apply top results

def nothing : Effect := ⟨True, 0, 0, 0, 0⟩

def undefined : Effect := ⟨False, 0, 0, 0, 0⟩

def andThen (first second : Effect) : Effect where
  defined := first.defined ∧ second.defined
  total := first.total + second.total
  groups := first.groups + second.groups
  waveform := first.waveform + second.waveform
  reach := fun component => max (first.reach component) (second.reach component)

theorem addWaveform_zero : addWaveform 0 = id := by
  funext clked
  have same : clked.waveform.mapIdx (fun cycle value => value + (0 : Nat → ℚ) cycle) = clked.waveform := by
    apply List.ext_getElem <;> simp
  rw [addWaveform,same,id_eq]

theorem map_unchanged (map : Component → ι → Option PowerClkedWaveform) : (fun component inst =>
    if inst = top then (map component inst).map (addWaveform ((0 : Component → Nat → ℚ) component))
    else map component inst) = map := by
  funext component inst
  rw [Pi.zero_apply,addWaveform_zero,Option.map_id,id_eq,ite_self]

theorem addWaveform_add (first second : Nat → ℚ) (clked : PowerClkedWaveform) :
    addWaveform second (addWaveform first clked) = addWaveform (first + second) clked := by
  have same : (clked.waveform.mapIdx fun cycle value => value + first cycle).mapIdx (fun cycle value =>
    value + second cycle) =
      clked.waveform.mapIdx fun cycle value => value + (first + second) cycle := by
    apply List.ext_getElem
    · simp
    · intro cycle inside inside'
      simp only [List.getElem_mapIdx,Pi.add_apply,add_assoc]
  simp only [addWaveform]
  rw [same]

theorem size_apply (effect : Effect) (results : Results ι) :
    size top (effect.apply top results) = size top results := by
  funext component
  simp only [size,apply,if_true]
  cases results.total.instToPowerClkedWaveformMap component top with
  | none => rfl
  | some clked => simp [addWaveform]

theorem apply_nothing (results : Results ι) : nothing.apply top results = results := by
  simp only [apply,nothing,map_unchanged]
  simp

theorem apply_andThen (first second : Effect) (results : Results ι) :
    (first.andThen second).apply top results = second.apply top (first.apply top results) := by
  have waveforms : ∀ component inst, (if inst = top then (results.total.instToPowerClkedWaveformMap component inst).map
      (addWaveform ((first.andThen second).waveform component))
        else results.total.instToPowerClkedWaveformMap component inst) =
      ((second.apply top (first.apply top results)).total.instToPowerClkedWaveformMap component inst) := by
    intro component inst
    simp only [apply]
    by_cases whole : inst = top
    · rw [if_pos whole,if_pos whole,if_pos whole,Option.map_map]
      congr 1
      exact (funext (addWaveform_add _ _)).symm
    · rw [if_neg whole,if_neg whole,if_neg whole]
  have maps := funext fun component => funext (waveforms component)
  have total : (first.andThen second).apply top results = ⟨⟨_, _⟩, _⟩ := rfl
  rw [total,maps]
  simp only [apply,andThen,Pi.add_apply,add_assoc]

theorem Adds.nothing : Adds top nothing fun results => some results := by
  intro results left
  have fits : Effect.nothing.Fits top results := ⟨trivial, fun _ => Nat.zero_le _⟩
  rw [apply_nothing,Option.some_inj,and_iff_right fits]
  exact eq_comm

theorem Adds.undefined : Adds top undefined fun _ => none := by
  intro results left
  constructor
  · intro ran
    cases ran
  · intro fits
    exact fits.1.1.elim

theorem Adds.bind {step next : Results ι → Option (Results ι)} (adds : Adds top first step)
    (after : Adds top second next) :
    Adds top (first.andThen second) fun results => (step results).bind next := by
  intro results left
  have fits : (first.andThen second).Fits top results ↔ first.Fits top results ∧
    second.Fits top (first.apply top results) := by
    simp only [Fits,andThen,max_le_iff,size_apply]
    exact ⟨fun all => ⟨⟨all.1.1, fun component => (all.2 component).1⟩, all.1.2, fun component => (all.2 component).2⟩,
      fun both => ⟨⟨both.1.1, both.2.1⟩, fun component => ⟨both.1.2 component, both.2.2 component⟩⟩⟩
  rw [fits,apply_andThen,Option.bind_eq_some_iff]
  constructor
  · rintro ⟨between, ran, ran'⟩
    obtain ⟨fits, rfl⟩ := (adds results between).mp ran
    obtain ⟨fits', rfl⟩ := (after _ left).mp ran'
    exact ⟨⟨fits, fits'⟩, rfl⟩
  · rintro ⟨⟨fits, fits'⟩, rfl⟩
    exact ⟨_, (adds results _).mpr ⟨fits, rfl⟩, (after _ _).mpr ⟨fits', rfl⟩⟩

theorem Adds.congr {step other : Results ι → Option (Results ι)} (adds : Adds top effect step)
    (same : ∀ results, other results = step results) : Adds top effect other := by
  intro results left
  rw [same]
  exact adds results left

theorem Adds.foldlM {β : Type} {step : Results ι → β → Option (Results ι)} {items : List β}
    (adds : ∀ item ∈ items, ∃ effect, Adds top effect fun results => step results item) :
    ∃ effect, Adds top effect fun results => items.foldlM step results := by
  induction items with
  | nil => exact ⟨_, Adds.nothing⟩
  | cons item rest ih =>
    obtain ⟨first, here⟩ := adds item List.mem_cons_self
    obtain ⟨second, later⟩ := ih fun item mem => adds item (List.mem_cons_of_mem _ mem)
    exact ⟨_, here.bind later⟩

end Effect

open Effect

def atCycle (component : Component) (cycle : Nat) (value : ℚ) : Component → Nat → ℚ :=
  Function.update 0 component (Function.update 0 cycle value)

theorem modify_eq_addWaveform (component : Component) (cycle : Nat) (value : ℚ) (clked : PowerClkedWaveform) :
    { clked with waveform := clked.waveform.modify cycle (· + value) } =
    addWaveform (atCycle component cycle value component) clked := by
  have same : clked.waveform.modify cycle (· + value) =
      clked.waveform.mapIdx fun place entry => entry + atCycle component cycle value component place := by
    rw [atCycle,Function.update_self]
    apply List.ext_getElem
    · simp
    · intro place inside inside'
      rw [List.getElem_modify,List.getElem_mapIdx]
      by_cases here : cycle = place
      · subst here
        simp
      · rw [if_neg here,Function.update_of_ne (Ne.symm here)]
        simp
  rw [addWaveform,same]

theorem update_eq_addWaveform (map : Component → ι → Option PowerClkedWaveform) (component : Component)
    (cycle : Nat) (value : ℚ) (held : map component top = some clked) :
    Function.update map component (Function.update (map component) top
      (some { clked with waveform := clked.waveform.modify cycle (· + value) })) = fun other inst =>
        if inst = top then (map other inst).map (addWaveform (atCycle component cycle value other))
          else map other inst := by
  funext other inst
  by_cases same : other = component
  · subst same
    rw [Function.update_self]
    by_cases whole : inst = top
    · subst whole
      rw [Function.update_self,if_pos rfl,held,Option.map_some,modify_eq_addWaveform other]
    · rw [Function.update_of_ne whole,if_neg whole]
  · rw [Function.update_of_ne same,atCycle,Function.update_of_ne same,Pi.zero_apply,addWaveform_zero,Option.map_id,
      id_eq,ite_self]

omit [DecidableEq ι] in
theorem reach_one_iff (results : Results ι) (component : Component) (cycle : Nat) :
    (∀ other, Function.update (0 : Component → Nat) component (cycle + 1) other ≤ size top results other) ↔
      ∃ clked, results.total.instToPowerClkedWaveformMap component top = some clked ∧
        cycle < clked.waveform.length := by
  constructor
  · intro all
    have here := all component
    rw [Function.update_self,size] at here
    cases held : results.total.instToPowerClkedWaveformMap component top with
    | none => simp [held] at here
    | some clked => exact ⟨clked, rfl, by simpa [held] using here⟩
  · rintro ⟨clked, held, inside⟩ other
    by_cases same : other = component
    · subst same
      rw [Function.update_self,size,held]
      exact inside
    · rw [Function.update_of_ne same]
      exact Nat.zero_le _

theorem adds_addAt (component : Component) (cycle : Nat) (value : ℚ) :
    Adds top ⟨True, 0, 0, atCycle component cycle value, Function.update 0 component (cycle + 1)⟩ fun results :
    Results ι =>
      (results.total.addAt top (component, cycle, value)).map fun total => { results with total } := by
  intro results left
  simp only [Effect.Fits,true_and,reach_one_iff,PowerResult.addAt,Option.map_eq_some_iff,Option.bind_eq_some_iff]
  constructor
  · rintro ⟨total, ⟨clked, held, chosen⟩, rfl⟩
    by_cases inside : cycle < clked.waveform.length
    · rw [if_pos inside,update_eq_addWaveform _ _ _ _ held] at chosen
      cases chosen
      refine ⟨⟨clked, held, inside⟩, ?_⟩
      simp [apply]
    · rw [if_neg inside] at chosen
      cases chosen
  · rintro ⟨⟨clked, held, inside⟩, rfl⟩
    refine ⟨_, ⟨clked, held, if_pos inside⟩, ?_⟩
    rw [update_eq_addWaveform _ _ _ _ held]
    simp [apply]

theorem adds_addAll (top : ι) (additions : List (Component × Nat × ℚ)) : ∃ effect, Adds top effect fun results =>
    (additions.foldlM (PowerResult.addAt top) results.total).map fun total => { results with total } := by
  have same : (fun results : Results ι => (additions.foldlM (PowerResult.addAt top) results.total).map fun total =>
    { results with total }) =
      fun results => additions.foldlM (fun results added => (results.total.addAt top added).map fun total =>
        { results with total })
        results := by
    funext results
    induction additions generalizing results with
    | nil => rfl
    | cons added rest ih =>
      rw [List.foldlM_cons,List.foldlM_cons]
      cases added' : results.total.addAt top added with
      | none => rfl
      | some total => exact ih { results with total }
  rw [same]
  exact Adds.foldlM fun added _ => ⟨_, adds_addAt added.1 added.2.1 added.2.2⟩

def PowerResult.Plain (result : PowerResult ι) : Prop := result.instToPowerClkedWaveformMap = fun _ _ => none

omit [DecidableEq ι] in
theorem PowerResult.incr_plain (result : PowerResult ι) {other : PowerResult ι} (plain : other.Plain) :
    result.incr other = { result with power := result.power + other.power } := by
  rw [PowerResult.incr,plain]
  simp

theorem adds_count (top : ι) (cell : CellKind) {instPower : PowerResult ι} (plain : instPower.Plain) :
    ∃ effect, Adds top effect fun results => some (results.count cell instPower) := by
  refine ⟨⟨True, instPower.power, Function.update 0 cell.group instPower.power, 0, 0⟩, fun results left => ?_⟩
  have counted : results.count cell instPower =
      apply top ⟨True, instPower.power, Function.update 0 cell.group instPower.power, 0, 0⟩ results := by
    have groups : Function.update results.groups cell.group ((results.groups cell.group).incr instPower) = fun group =>
        { results.groups group with
          power := (results.groups group).power + (Function.update 0 cell.group instPower.power : PowerGroup →
            Component → ℚ) group } := by
      funext group
      by_cases same : group = cell.group
      · subst same
        rw [Function.update_self,Function.update_self,PowerResult.incr_plain _ plain]
      · rw [Function.update_of_ne same,Function.update_of_ne same]
        simp
    rw [Results.count,groups,PowerResult.incr_plain _ plain]
    simp only [apply,map_unchanged]
  have fits : Effect.Fits top ⟨True, instPower.power, Function.update 0 cell.group instPower.power, 0, 0⟩ results :=
    ⟨trivial, fun _ => Nat.zero_le _⟩
  rw [← counted,Option.some_inj,and_iff_right fits]
  exact eq_comm

theorem adds_counts {β : Type} (top : ι) (cell : β → CellKind) (instPower : β → PowerResult ι) (items : List β)
    (plain : ∀ item ∈ items, (instPower item).Plain) : ∃ effect, Adds top effect fun results =>
      some (items.foldl (fun results item => results.count (cell item) (instPower item)) results) := by
  have same : (fun results : Results ι =>
    some (items.foldl (fun results item => results.count (cell item) (instPower item)) results)) =
      fun results => items.foldlM (fun results item => some (results.count (cell item) (instPower item))) results := by
    funext results
    exact (List.foldlM_pure (m := Option)).symm
  rw [same]
  exact Adds.foldlM fun item mem => adds_count top (cell item) (plain item mem)

end Effects

section Runs
variable {ι κ α : Type} [DecidableEq ι] {clock : Clock} {top : ι} {launch : Launch}

open Effect

theorem adds_countTimeBased (clock : Clock) (top : ι) (inst : HostInst κ α) :
    ∃ effect, Adds top effect fun results : Results ι => countTimeBased clock top results inst := by
  unfold countTimeBased timeBasedPower
  cases inst.gate.findTimeBasedAllPower clock with
  | none => exact ⟨_, Adds.undefined⟩
  | some run =>
    obtain ⟨added, adds⟩ := adds_addAll top (additions clock inst.gate run)
    have plain : ({ PowerResult.fresh with power := foldGlitch (run.powers clock) } : PowerResult ι).Plain := rfl
    obtain ⟨counted, counts⟩ := adds_count top inst.cell plain
    refine ⟨_, (adds.bind counts).congr fun results => ?_⟩
    rw [Option.bind_some]
    cases (additions clock inst.gate run).foldlM (PowerResult.addAt top) results.total with
    | none => rfl
    | some total => rfl

theorem threadJob_plain (clock : Clock) (top : ι) (instances : List (HostInst κ α))
    (ran : threadJob clock top instances = some thread) :
    ∀ instPower ∈ thread.2, instPower.Plain := by
  have onward : ∀ (instances : List (HostInst κ α)) (before after : PowerResult ι × List (PowerResult ι)),
      (∀ instPower ∈ before.2, instPower.Plain) →
      instances.foldlM (fun thread inst => (timeBasedPower clock top inst thread.1).map fun (instPower, total) =>
        (total, thread.2 ++ [instPower])) before = some after → ∀ instPower ∈ after.2, instPower.Plain := by
    intro instances
    induction instances with
    | nil =>
      rintro before after plain ⟨⟩
      exact plain
    | cons inst rest ih =>
      intro before after plain ran
      rw [List.foldlM_cons] at ran
      obtain ⟨between, step, ran⟩ := Option.bind_eq_some_iff.mp ran
      obtain ⟨⟨instPower, total⟩, power, rfl⟩ := Option.map_eq_some_iff.mp step
      refine ih _ _ (fun other mem => ?_) ran
      rcases List.mem_append.mp mem with old | new
      · exact plain other old
      · obtain rfl := List.mem_singleton.mp new
        obtain ⟨run, -, added⟩ := Option.bind_eq_some_iff.mp power
        obtain ⟨whole, -, made⟩ := Option.map_eq_some_iff.mp added
        obtain ⟨rfl, rfl⟩ := Prod.mk.inj made
        rfl
  exact onward instances _ _ (by simp) ran

theorem adds_mergeThread (clock : Clock) (top : ι) (thread : List (HostInst κ α) × PowerResult ι × List (PowerResult ι))
    (plain : ∀ instPower ∈ thread.2.2, instPower.Plain) :
    ∃ effect, Adds top effect fun results => mergeThread clock top results thread := by
  obtain ⟨added, adds⟩ := adds_addAll top (mergeAdditions clock top thread.2.1)
  obtain ⟨counted, counts⟩ :=
    adds_counts top (fun gate : HostInst κ α × PowerResult ι => gate.1.cell) (fun gate => gate.2)
    (thread.1.zip thread.2.2) fun gate mem => plain gate.2 (List.of_mem_zip mem).2
  refine ⟨_, (adds.bind counts).congr fun results => ?_⟩
  rw [mergeThread]
  cases (mergeAdditions clock top thread.2.1).foldlM (PowerResult.addAt top) results.total with
  | none => rfl
  | some total => rfl

/-- The CPU starts from the cleared results with the waveforms set up, and has an effect on them. -/
theorem adds_power (clock : Clock) (mode : HostMode κ α) (instances : List (HostInst κ α)) :
    ∃ effect : Effect, ∀ results left : Results ι, power clock top mode instances results = some left ↔
      effect.Fits top (results.clear.initWaveforms top clock.clkPeriod clock.hostNPeriod) ∧
      left = effect.apply top (results.clear.initWaveforms top clock.clkPeriod clock.hostNPeriod) := by
  cases mode with
  | average instPower =>
    obtain ⟨effect, adds⟩ := adds_counts top HostInst.cell
      (fun inst : HostInst κ α => { PowerResult.fresh with power := instPower inst }) instances fun _ _ => rfl
    exact ⟨effect, fun results => adds _⟩
  | timeBased =>
    have each : ∀ inst ∈ instances, ∃ effect, Adds top effect fun results :
      Results ι => countTimeBased clock top results inst :=
      fun inst _ => adds_countTimeBased clock top inst
    obtain ⟨effect, adds⟩ := Adds.foldlM each
    exact ⟨effect, fun results => adds _⟩
  | multiThreaded nThread =>
    simp only [power]
    cases ran : (List.range nThread).mapM fun tId =>
      (threadJob clock top (perThreadInstances nThread instances tId)).map fun thread =>
        (perThreadInstances nThread instances tId, thread) with
    | none => exact ⟨Effect.undefined, fun results => Adds.undefined _⟩
    | some threads =>
      have plain : ∀ thread ∈ threads, ∀ instPower ∈ thread.2.2, instPower.Plain := by
        intro thread mem
        obtain ⟨tId, paired⟩ : ∃ tId, (threadJob clock top (perThreadInstances nThread instances tId)).map
            (fun thread => (perThreadInstances nThread instances tId, thread)) = some thread := by
          obtain ⟨place, inside, rfl⟩ := List.getElem_of_mem mem
          have each := List.forall₂_iff_get.mp (HostGate.mapM_eq_some_iff.mp ran)
          exact ⟨_, each.2 place (each.1 ▸ inside) inside⟩
        obtain ⟨result, job, rfl⟩ := Option.map_eq_some_iff.mp paired
        exact threadJob_plain clock top _ job
      have each : ∀ thread ∈ threads, ∃ effect, Adds top effect fun results => mergeThread clock top results thread :=
        fun thread mem => adds_mergeThread clock top thread (plain thread mem)
      obtain ⟨effect, adds⟩ := Adds.foldlM each
      exact ⟨effect, fun results => adds _⟩

theorem initWaveforms_counts {β : Type} (clkPeriod : ℚ) (nPeriod : Nat) (cell : β → CellKind)
    (instPower : β → PowerResult ι) (items : List β) (plain : ∀ item ∈ items, (instPower item).Plain)
    (results : Results ι) :
    (items.foldl (fun results item => results.count (cell item) (instPower item)) results).initWaveforms top
    clkPeriod nPeriod =
      items.foldl (fun results item => results.count (cell item) (instPower item))
        (results.initWaveforms top clkPeriod nPeriod) := by
  induction items generalizing results with
  | nil => rfl
  | cons item rest ih =>
    have one : (results.count (cell item) (instPower item)).initWaveforms top clkPeriod nPeriod =
        (results.initWaveforms top clkPeriod nPeriod).count (cell item) (instPower item) := by
      have here := plain item List.mem_cons_self
      simp only [Results.initWaveforms,Results.count,PowerResult.incr_plain _ here]
      rfl
    rw [List.foldl_cons,List.foldl_cons,ih (fun other mem => plain other (List.mem_cons_of_mem _ mem)),one]

/-- The device counts the instances before it sets up the waveforms, with the same outcome as after it. -/
theorem adds_cudaPower (clock : Clock) (insts : List DeviceInst) (launch : Launch) (uninitialized : Nat → Nat)
    (order : Nat → List (Nat × Nat)) (nInterval : Nat) :
    ∃ effect : Effect, ∀ results left :
    Results ι, cudaPower clock top insts launch uninitialized order nInterval results = some left ↔
      effect.Fits top (results.clear.initWaveforms top clock.clkPeriod clock.deviceNPeriod) ∧
      left = effect.apply top (results.clear.initWaveforms top clock.clkPeriod clock.deviceNPeriod) := by
  unfold cudaPower
  cases (List.range nInterval).foldlM (runInterval clock launch insts uninitialized order) ⟨0, 0⟩ with
  | none => exact ⟨Effect.undefined, fun results => Adds.undefined _⟩
  | some st =>
    obtain ⟨counted, counts⟩ := adds_counts top (fun inst : DeviceInst × Nat => inst.1.cell)
      (fun inst => { PowerResult.fresh with power := st.instToRes inst.2 }) insts.zipIdx fun _ _ => rfl
    obtain ⟨copied, copies⟩ := adds_addAll top (copyAdditions clock st)
    refine ⟨counted.andThen copied, fun results left => ?_⟩
    rw [← counts.bind copies (results.clear.initWaveforms top clock.clkPeriod clock.deviceNPeriod),Option.bind_some,
      finalizeResult]
    dsimp only
    rw [initWaveforms_counts clock.clkPeriod clock.deviceNPeriod (fun inst : DeviceInst × Nat => inst.1.cell)
      (fun inst => { PowerResult.fresh with power := st.instToRes inst.2 }) insts.zipIdx (fun _ _ => rfl) results.clear]
    rfl

/-- Adding the same twice tells results apart that were different before. -/
theorem same_apply_iff (effect : Effect) (results other : Results ι) :
    (effect.apply top results).Same (effect.apply top other) ↔ results.Same other := by
  have power : ∀ (a b amount : Component → ℚ), a + amount = b + amount ↔ a = b := fun a b amount => add_left_inj amount
  have injective : ∀ amount : Nat → ℚ, Function.Injective fun waveform : List ℚ => waveform.mapIdx fun cycle value =>
    value + amount cycle := by
    intro amount waveform waveform' same
    have long := congrArg List.length same
    rw [List.length_mapIdx,List.length_mapIdx] at long
    refine List.ext_getElem long fun cycle inside inside' => ?_
    have here := congrArg (fun waveform : List ℚ => waveform[cycle]?) same
    simpa [inside,inside'] using here
  have waveform : ∀ component inst,
      ((effect.apply top results).total.instToPowerClkedWaveformMap component inst).map PowerClkedWaveform.waveform =
        ((effect.apply top other).total.instToPowerClkedWaveformMap component inst).map PowerClkedWaveform.waveform ↔
      (results.total.instToPowerClkedWaveformMap component inst).map PowerClkedWaveform.waveform =
        (other.total.instToPowerClkedWaveformMap component inst).map PowerClkedWaveform.waveform := by
    intro component inst
    by_cases whole : inst = top
    · have split : ∀ held : Option PowerClkedWaveform,
        (held.map (addWaveform (effect.waveform component))).map PowerClkedWaveform.waveform =
          (held.map PowerClkedWaveform.waveform).map fun waveform => waveform.mapIdx fun cycle value =>
            value + effect.waveform component cycle := by
        intro held
        cases held <;> rfl
      simp only [apply,if_pos whole,split]
      exact (Option.map_injective (injective _)).eq_iff
    · simp only [apply,if_neg whole]
  constructor
  · intro same
    exact ⟨⟨(power _ _ _).mp same.total.power, fun component inst =>
      (waveform component inst).mp (same.total.waveform component inst)⟩,
      fun group => ⟨(power _ _ _).mp (same.groups group).power, (same.groups group).waveform⟩⟩
  · intro same
    exact ⟨⟨(power _ _ _).mpr same.total.power, fun component inst =>
      (waveform component inst).mpr (same.total.waveform component inst)⟩,
      fun group => ⟨(power _ _ _).mpr (same.groups group).power, (same.groups group).waveform⟩⟩

theorem initPowerClkedWaveform_map (component other : Component) (top inst : ι) (clkPeriod : ℚ) (nPeriod : Nat)
    (result : PowerResult ι) :
    (result.initPowerClkedWaveform component top clkPeriod nPeriod).instToPowerClkedWaveformMap other inst =
      if other = component ∧ inst =
        top then some ((result.instToPowerClkedWaveformMap other inst).getD ⟨clkPeriod, List.replicate nPeriod 0⟩)
      else result.instToPowerClkedWaveformMap other inst := by
  simp only [PowerResult.initPowerClkedWaveform]
  by_cases same : other = component
  · subst same
    by_cases whole : inst = top
    · subst whole
      rw [Function.update_self,Function.update_self,if_pos ⟨rfl, rfl⟩]
      cases result.instToPowerClkedWaveformMap other inst <;> rfl
    · rw [Function.update_self,Function.update_of_ne whole,if_neg fun both => whole both.2]
  · rw [Function.update_of_ne same,if_neg fun both => same both.1]

theorem initWaveforms_map (top : ι) (clkPeriod : ℚ) (nPeriod : Nat) (result : PowerResult ι) (component : Component)
    (inst : ι) :
    (result.initWaveforms top clkPeriod nPeriod).instToPowerClkedWaveformMap component inst =
      if inst = top then some ((result.instToPowerClkedWaveformMap component inst).getD ⟨clkPeriod,
        List.replicate nPeriod 0⟩)
      else result.instToPowerClkedWaveformMap component inst := by
  simp only [PowerResult.initWaveforms,PowerResult.initLeakagePowerClkedWaveform,
    PowerResult.initInternalPowerClkedWaveform,
    PowerResult.initGlitchInternalPowerClkedWaveform,PowerResult.initSwitchingPowerClkedWaveform,
    PowerResult.initGlitchSwitchingPowerClkedWaveform,initPowerClkedWaveform_map]
  cases component <;> simp

theorem same_start_iff (top : ι) (clkPeriod : ℚ) (nPeriod : Nat) (results : Results ι) :
    (results.clear.initWaveforms top clkPeriod nPeriod).Same (Results.fresh.clear.initWaveforms top clkPeriod nPeriod) ↔
      results.Clean top nPeriod := by
  have cleared : ∀ result : PowerResult ι, result.clear.power = (PowerResult.fresh : PowerResult ι).clear.power ↔
      ∀ component, component = .glitchInternal ∨ component = .glitchSwitching → result.power component = 0 := by
    intro result
    constructor
    · rintro same component (rfl | rfl)
      · exact congrFun same .glitchInternal
      · exact congrFun same .glitchSwitching
    · intro zero
      funext component
      cases component with
      | glitchInternal => exact zero _ (.inl rfl)
      | glitchSwitching => exact zero _ (.inr rfl)
      | leakage => rfl
      | internal => rfl
      | switching => rfl
  constructor
  · intro same
    have total : ∀ component inst,
      ((results.clear.initWaveforms top clkPeriod nPeriod).total.instToPowerClkedWaveformMap component inst).map
        PowerClkedWaveform.waveform = if inst = top then some (List.replicate nPeriod 0) else none := by
      intro component inst
      rw [same.total.waveform component inst,Results.initWaveforms,initWaveforms_map]
      by_cases whole : inst = top
      · rw [if_pos whole,if_pos whole]
        rfl
      · rw [if_neg whole,if_neg whole]
        rfl
    refine ⟨fun component glitch => ⟨(cleared _).mp same.total.power component glitch, fun group =>
      (cleared _).mp (same.groups group).power component glitch⟩, fun group component inst =>
        ?_, fun component inst other => ?_,
      fun component clked held => ?_⟩
    · exact Option.map_eq_none_iff.mp ((same.groups group).waveform component inst)
    · have here := total component inst
      rw [if_neg other,Results.initWaveforms,initWaveforms_map,if_neg other] at here
      exact Option.map_eq_none_iff.mp here
    · have here := total component top
      have held' : results.clear.total.instToPowerClkedWaveformMap component top = some clked := held
      rw [if_pos rfl,Results.initWaveforms,initWaveforms_map,if_pos rfl,held'] at here
      exact Option.some.inj here
  · intro clean
    refine ⟨⟨(cleared _).mpr fun component glitch => (clean.glitch component glitch).1, fun component inst => ?_⟩,
      fun group =>
      ⟨(cleared _).mpr fun component glitch => (clean.glitch component glitch).2 group, fun component inst => ?_⟩⟩
    · rw [Results.initWaveforms,Results.initWaveforms,initWaveforms_map,initWaveforms_map]
      by_cases whole : inst = top
      · subst whole
        rw [if_pos rfl,if_pos rfl]
        cases held : results.clear.total.instToPowerClkedWaveformMap component inst with
        | none => rfl
        | some clked => exact congrArg some (clean.zeros component clked held)
      · rw [if_neg whole,if_neg whole]
        exact congrArg (Option.map PowerClkedWaveform.waveform) (clean.others component inst whole)
    · exact congrArg (Option.map PowerClkedWaveform.waveform) (clean.groups group component inst)

omit [DecidableEq ι] in
theorem size_eq (same : results.Same (other : Results ι)) : size top results = size top other := by
  funext component
  have long := congrArg (fun waveform => ((waveform.map List.length).getD 0 : Nat)) (same.total.waveform component top)
  rw [Option.map_map,Option.map_map] at long
  exact long

/-- A run that has an effect on its start leaves the same as with fresh results exactly where it starts the same. -/
theorem reused_iff {run : Results ι → Option (Results ι)} {start : Results ι → Results ι}
    (adds : ∃ effect : Effect, ∀ results left, run results = some left ↔ effect.Fits top (start results) ∧
      left = effect.apply top (start results)) {previous result : Results ι} (ran : run .fresh = some result) :
    (∃ left, run previous = some left ∧ left.Same result) ↔ (start previous).Same (start .fresh) := by
  obtain ⟨effect, spec⟩ := adds
  obtain ⟨fits, rfl⟩ := (spec _ _).mp ran
  constructor
  · rintro ⟨left, ran', same⟩
    obtain ⟨-, rfl⟩ := (spec _ _).mp ran'
    exact (same_apply_iff effect _ _).mp same
  · intro same
    refine ⟨_, (spec _ _).mpr ⟨⟨fits.1, fun component => ?_⟩, rfl⟩, (same_apply_iff effect _ _).mpr same⟩
    rw [size_eq same]
    exact fits.2 component

end Runs

/-- A run of one of the engines over a design. -/
inductive Engine where
  | cpu (clock : Clock) {κ α : Type} (mode : HostMode κ α) (instances : List (HostInst κ α))
  | cuda (clock : Clock) (insts : List DeviceInst) (launch : Launch) (uninitialized : Nat → Nat) (order : Nat →
    List (Nat × Nat))
      (nInterval : Nat)

namespace Engine
variable {ι : Type} [DecidableEq ι]

def run (top : ι) : Engine → Results ι → Option (Results ι)
  | .cpu clock mode instances => power clock top mode instances
  | .cuda clock insts launch uninitialized order nInterval =>
    cudaPower clock top insts launch uninitialized order nInterval

def nPeriod : Engine → Nat
  | .cpu clock .. => clock.hostNPeriod
  | .cuda clock .. => clock.deviceNPeriod

end Engine

/-- A run leaves in results of any content what it leaves in fresh ones exactly where they come clean. -/
theorem resultsReused_iff {ι : Type} [DecidableEq ι] (engine : Engine) (top : ι) (previous : Results ι)
    {result : Results ι} (ran : engine.run top .fresh = some result) :
    (∃ left, engine.run top previous = some left ∧ left.Same result) ↔ previous.Clean top engine.nPeriod := by
  cases engine with
  | cpu clock mode instances =>
    rw [Engine.nPeriod,← same_start_iff top clock.clkPeriod]
    exact reused_iff (adds_power clock mode instances) ran
  | cuda clock insts launch uninitialized order nInterval =>
    rw [Engine.nPeriod,← same_start_iff top clock.clkPeriod]
    exact reused_iff (adds_cudaPower clock insts launch uninitialized order nInterval) ran

section Examples

def pairRun : Engine := .cpu (tenTickClock 18) .timeBased [pairInst]

def twoCycleRun : Engine := .cuda (tenTickClock 18) [twoCycleInst] ⟨.cycle, 1, 2⟩ (fun _ => 0) (fun _ => launches 1 2) 1

theorem resultsReused_fresh : ∃ result, pairRun.run () .fresh = some result ∧
    ∃ left, pairRun.run () .fresh = some left ∧ left.Same result := by
  obtain ⟨result, ran⟩ := Option.isSome_iff_exists.mp (show (pairRun.run () .fresh).isSome by decide +kernel)
  refine ⟨result, ran, (resultsReused_iff pairRun () .fresh ran).mpr ⟨?_, ?_, ?_, ?_⟩⟩
  · exact fun component glitch => ⟨rfl, fun group => rfl⟩
  · exact fun group component inst => rfl
  · exact fun component inst other => rfl
  · intro component clked held
    cases held

/-- A second run into the results of the first one: its waveforms hold both. -/
theorem results_doubled : (∃ first again, pairRun.run () .fresh = some first ∧ pairRun.run () first = some again ∧
    ¬ again.Same first) ∧
    ∃ first again, twoCycleRun.run () .fresh = some first ∧ twoCycleRun.run () first = some again ∧
    ¬ again.Same first := by
  have doubled : ∀ engine : Engine, ((engine.run () .fresh).any fun first => (engine.run () first).any fun again =>
      again.total.waveformAt .switching () 0 ≠ first.total.waveformAt .switching () 0) →
      ∃ first again, engine.run () .fresh = some first ∧ engine.run () first = some again ∧ ¬ again.Same first := by
    intro engine found
    obtain ⟨first, ran, found⟩ := (Option.any_eq_true _ _).mp found
    obtain ⟨again, ran', differ⟩ := (Option.any_eq_true _ _).mp found
    refine ⟨first, again, ran, ran', fun same => of_decide_eq_true differ ?_⟩
    rw [PowerResult.waveformAt,same.total.waveform .switching (),PowerResult.waveformAt]
  exact ⟨doubled pairRun (by decide +kernel), doubled twoCycleRun (by decide +kernel)⟩

end Examples
end GTPower.ResultReuse
