import GTPower.Blocks
import GTPower.OutputEnergy

/-! The delays of the cell arcs in one global array: how they are stored gate by gate on the host, and how a gate of the
kernels reads them behind its own pointer. -/
namespace GTPower

section Writes
variable {κ β : Type} (place : κ → Nat) (value : κ → Option β)

/-- Writes the value of a key at its place, `none` where the place is outside of the array. -/
def writeOne (array : List β) (key : κ) : Option (List β) :=
  match value key with
  | none => some array
  | some entry => if place key < array.length then some (array.set (place key) entry) else none

def writeAll (array : List β) (keys : List κ) : Option (List β) := keys.foldlM (writeOne place value) array

theorem writeOne_spec (array : List β) (key : κ) (inside : place key < array.length) :
    ∃ result, writeOne place value array key = some result ∧ result.length = array.length ∧
      result[place key]? = (value key).or array[place key]? ∧ ∀ idx, place key ≠ idx → result[idx]? = array[idx]? := by
  unfold writeOne
  cases value key with
  | none => exact ⟨array, rfl, rfl, rfl, fun idx _ => rfl⟩
  | some entry =>
    refine ⟨array.set (place key) entry, if_pos inside, List.length_set, ?_, fun idx other =>
      List.getElem?_set_ne other⟩
    rw [List.getElem?_set_self inside,Option.some_or]

theorem writeAll_spec (keys : List κ) (array : List β) (inside : ∀ key ∈ keys, place key < array.length)
    (apart : ∀ key ∈ keys, ∀ other ∈ keys, place key = place other → value key = value other) :
    ∃ result, writeAll place value array keys = some result ∧ result.length = array.length ∧
      (∀ key ∈ keys, result[place key]? = (value key).or array[place key]?) ∧
      ∀ idx, (∀ key ∈ keys, place key ≠ idx) → result[idx]? = array[idx]? := by
  induction keys generalizing array with
  | nil => exact ⟨array, rfl, rfl, by simp, fun idx _ => rfl⟩
  | cons key rest ih =>
    obtain ⟨middle, first, size, here, others⟩ :=
      writeOne_spec place value array key (inside key (List.mem_cons_self ..))
    obtain ⟨result, later, size', found, kept⟩ :=
      ih middle (fun other mem => by rw [size]; exact inside other (List.mem_cons_of_mem _ mem))
      fun one mem other mem' => apart one (List.mem_cons_of_mem _ mem) other (List.mem_cons_of_mem _ mem')
    have again : ∀ other ∈ rest, place other = place key → result[place key]? = (value key).or array[place key]? := by
      intro other mem same
      have read := found other mem
      rw [same,here,apart other (List.mem_cons_of_mem _ mem) key (List.mem_cons_self ..) same] at read
      rw [read]
      cases value key <;> rfl
    refine ⟨result, ?_, size'.trans size, fun other mem => ?_, fun idx free => ?_⟩
    · rw [writeAll,List.foldlM_cons,first]
      exact later
    · by_cases same : place other = place key
      · rw [same,apart other mem key (List.mem_cons_self ..) same]
        by_cases twice : ∃ third ∈ rest, place third = place key
        · obtain ⟨third, mem, same⟩ := twice
          exact again third mem same
        · rw [kept _ fun third mem same => twice ⟨third, mem, same⟩,here]
      · rcases List.mem_cons.mp mem with rfl | mem
        · exact absurd rfl same
        · rw [found other mem,others _ (Ne.symm same)]
    · rw [kept idx fun other mem => free other (List.mem_cons_of_mem _ mem),
        others idx (free key (List.mem_cons_self ..))]

end Writes

/-- A gate with its pins, inputs first, and the delays of the arcs between them, by the indices of the pins. -/
structure ArcGate where
  nPin : Nat
  nInputPin : Nat
  nOutputPin : Nat
  split : nPin = nInputPin + nOutputPin
  arcDelay : Nat → RiseFall → Nat → RiseFall → Option ℚ

section Host

def riseFallEdgeIndex : RiseFall → RiseFall → Nat
  | .fall, .fall => 0
  | .fall, .rise => 1
  | .rise, .fall => 2
  | .rise, .rise => 3

structure PinPair where
  outPinIdx : Nat
  inPinIdx : Nat
  toRf : RiseFall
  fromRf : RiseFall

namespace ArcGate
variable (gate : ArcGate)

def nArc : Nat := gate.nOutputPin * gate.nInputPin * 4

/-- The rounds of the loops over the pins and directions. -/
def pinPairs : List PinPair :=
  (List.range' gate.nInputPin gate.nOutputPin).flatMap fun outPinIdx =>
    (List.range gate.nInputPin).flatMap fun inPinIdx =>
      [RiseFall.rise, .fall].flatMap fun toRf => [RiseFall.rise, .fall].map fun fromRf =>
        ⟨outPinIdx, inPinIdx, toRf, fromRf⟩

def delayIdx (delayBase : Nat) (pair : PinPair) : Nat :=
  delayBase + ((pair.outPinIdx - gate.nInputPin) * gate.nInputPin + pair.inPinIdx) * 4 +
    riseFallEdgeIndex pair.fromRf pair.toRf

def getDelay (globalCellArcDelays : List ℚ) : Option (List ℚ) :=
  writeAll (gate.delayIdx globalCellArcDelays.length) (fun pair =>
    gate.arcDelay pair.inPinIdx pair.fromRf pair.outPinIdx pair.toRf)
    (globalCellArcDelays ++ List.replicate gate.nArc invalidDelayVal) gate.pinPairs

end ArcGate

def getDelays (gates : List ArcGate) : Option (List ℚ) := gates.foldlM (fun delays gate => gate.getDelay delays) []

end Host

section Device

def arcDelayOffsets : Nat → List ArcGate → List (ArcGate × Nat)
  | _, [] => []
  | accuCellArcDelayCount, gate :: rest =>
    (gate, accuCellArcDelayCount) :: arcDelayOffsets (accuCellArcDelayCount + gate.nOutputPin * gate.nInputPin * 4) rest

/-- Index behind the pointer that a gate of the kernels reads. -/
def deviceArcIdx (nInputPin outputPinLocalIdx inputPinIdx : Nat) (fromRf toRf : RiseFall) : Nat :=
  (outputPinLocalIdx * nInputPin + inputPinIdx) * 4 + (2 * (1 - fromRf.toNat) + (1 - toRf.toNat))

/-- The pointer of a gate is set behind the delays of the gates before it. -/
def Gate.setGateInfoByGlobalPointer (gate : Gate n) (globalCellArcDelays : List ℚ) (accuCellArcDelayCount : Nat) :
    Gate n :=
  { gate with cellArcDelays := fun idx => globalCellArcDelays.getD (accuCellArcDelayCount + idx) 0 }

end Device

section Layout

theorem riseFallEdgeIndex_device (fromRf toRf : RiseFall) :
    2 * (1 - fromRf.toNat) + (1 - toRf.toNat) = riseFallEdgeIndex fromRf toRf := by
  cases fromRf <;> cases toRf <;> rfl

theorem riseFallEdgeIndex_lt (fromRf toRf : RiseFall) : riseFallEdgeIndex fromRf toRf < 4 := by
  cases fromRf <;> cases toRf <;> decide

theorem riseFallEdgeIndex_inj (same : riseFallEdgeIndex fromRf toRf = riseFallEdgeIndex fromRf' toRf') :
    fromRf = fromRf' ∧ toRf = toRf' := by
  revert same
  cases fromRf <;> cases toRf <;> cases fromRf' <;> cases toRf' <;> decide

namespace ArcGate
variable {gate : ArcGate}

theorem mem_pinPairs : pair ∈ gate.pinPairs ↔
    gate.nInputPin ≤ pair.outPinIdx ∧ pair.outPinIdx < gate.nInputPin + gate.nOutputPin ∧
    pair.inPinIdx < gate.nInputPin := by
  obtain ⟨outPinIdx, inPinIdx, toRf, fromRf⟩ := pair
  have rise_fall : ∀ rf : RiseFall, rf = .rise ∨ rf = .fall := fun rf => by cases rf <;> simp
  simp only [pinPairs,List.mem_flatMap,List.mem_map,List.mem_range'_1,List.mem_range,List.mem_cons,
    List.not_mem_nil,or_false,
    PinPair.mk.injEq]
  constructor
  · rintro ⟨out, ⟨low, high⟩, input, less, toRf', -, fromRf', -, rfl, rfl, -⟩
    exact ⟨low, high, less⟩
  · rintro ⟨low, high, less⟩
    exact ⟨outPinIdx, ⟨low, high⟩, inPinIdx, less, toRf, rise_fall toRf, fromRf, rise_fall fromRf, rfl, rfl, rfl, rfl⟩

theorem delayIdx_base (gate : ArcGate) (delayBase : Nat) (pair : PinPair) :
    gate.delayIdx delayBase pair = delayBase + gate.delayIdx 0 pair := by
  simp only [delayIdx]
  omega

theorem delayIdx_lt (mem : pair ∈ gate.pinPairs) : gate.delayIdx 0 pair < gate.nArc := by
  obtain ⟨low, high, less⟩ := mem_pinPairs.mp mem
  have row : (pair.outPinIdx - gate.nInputPin) * gate.nInputPin + pair.inPinIdx < gate.nOutputPin * gate.nInputPin := by
    calc (pair.outPinIdx - gate.nInputPin) * gate.nInputPin + pair.inPinIdx
        < (pair.outPinIdx - gate.nInputPin + 1) * gate.nInputPin := by rw [Nat.succ_mul]; omega
      _ ≤ gate.nOutputPin * gate.nInputPin := Nat.mul_le_mul_right _ (by omega)
  have edge := riseFallEdgeIndex_lt pair.fromRf pair.toRf
  unfold delayIdx nArc
  omega

theorem delayIdx_inj (mem : pair ∈ gate.pinPairs) (mem' : pair' ∈ gate.pinPairs)
    (same : gate.delayIdx delayBase pair = gate.delayIdx delayBase pair') : pair = pair' := by
  obtain ⟨low, -, less⟩ := mem_pinPairs.mp mem
  obtain ⟨low', -, less'⟩ := mem_pinPairs.mp mem'
  have edge := riseFallEdgeIndex_lt pair.fromRf pair.toRf
  have edge' := riseFallEdgeIndex_lt pair'.fromRf pair'.toRf
  unfold delayIdx at same
  have rows : (pair.outPinIdx - gate.nInputPin) * gate.nInputPin + pair.inPinIdx =
      (pair'.outPinIdx - gate.nInputPin) * gate.nInputPin + pair'.inPinIdx := by omega
  have edges : riseFallEdgeIndex pair.fromRf pair.toRf = riseFallEdgeIndex pair'.fromRf pair'.toRf := by omega
  have columns := congrArg (· % gate.nInputPin) rows
  simp only [Nat.mul_add_mod',Nat.mod_eq_of_lt less,Nat.mod_eq_of_lt less'] at columns
  rw [columns] at rows
  have outputs := Nat.eq_of_mul_eq_mul_right (Nat.lt_of_le_of_lt (Nat.zero_le _) less) (Nat.add_right_cancel rows)
  obtain ⟨fromRf, toRf⟩ := riseFallEdgeIndex_inj edges
  obtain ⟨outPinIdx, inPinIdx, edge, edge⟩ := pair
  obtain ⟨outPinIdx', inPinIdx', edge', edge'⟩ := pair'
  simp only [PinPair.mk.injEq] at low low' outputs columns toRf fromRf ⊢
  exact ⟨by omega, columns, toRf, fromRf⟩

/-- A gate appends the delays of its arcs, with the invalid one where there is no arc. -/
theorem getDelay_spec (gate : ArcGate) (delays : List ℚ) : ∃ block, gate.getDelay delays = some (delays ++ block) ∧
    block.length = gate.nArc ∧ ∀ pair ∈ gate.pinPairs,
      block[gate.delayIdx 0 pair]? =
        some ((gate.arcDelay pair.inPinIdx pair.fromRf pair.outPinIdx pair.toRf).getD invalidDelayVal) := by
  obtain ⟨result, run, size, found, kept⟩ := writeAll_spec (gate.delayIdx delays.length)
    (fun pair => gate.arcDelay pair.inPinIdx pair.fromRf pair.outPinIdx pair.toRf) gate.pinPairs
    (delays ++ List.replicate gate.nArc invalidDelayVal)
    (fun pair mem => by
      rw [List.length_append,List.length_replicate,delayIdx_base]
      exact Nat.add_lt_add_left (delayIdx_lt mem) _)
    (fun pair mem other mem' same => by rw [delayIdx_inj mem mem' same])
  rw [List.length_append,List.length_replicate] at size
  have front : result.take delays.length = delays := by
    apply List.ext_getElem?
    intro idx
    rw [List.getElem?_take]
    by_cases inside : idx < delays.length
    · rw [if_pos inside,kept idx fun pair _ => by rw [delayIdx_base]; omega,List.getElem?_append_left inside]
    · rw [if_neg inside,List.getElem?_eq_none (Nat.le_of_not_lt inside)]
  refine ⟨result.drop delays.length, ?_, by rw [List.length_drop,size]; omega, fun pair mem => ?_⟩
  · have whole := List.take_append_drop delays.length result
    rw [front] at whole
    rw [whole]
    exact run
  · have bound := delayIdx_lt mem
    rw [List.getElem?_drop,← delayIdx_base,found pair mem,List.getElem?_append_right (by rw [delayIdx_base]; omega),
      List.getElem?_replicate_of_lt (by rw [delayIdx_base]; omega)]
    cases gate.arcDelay pair.inPinIdx pair.fromRf pair.outPinIdx pair.toRf <;> rfl

end ArcGate

/-- The gates are laid out one after the other, and every gate has its own part behind its offset. -/
theorem getDelays_spec (gates : List ArcGate) (delays : List ℚ) : ∃ blocks,
    gates.foldlM (fun delays gate => gate.getDelay delays) delays = some (delays ++ blocks) ∧
      ∀ gate base, (gate, base) ∈ arcDelayOffsets delays.length gates → ∀ pair ∈ gate.pinPairs,
        (delays ++ blocks)[gate.delayIdx base pair]? =
          some ((gate.arcDelay pair.inPinIdx pair.fromRf pair.outPinIdx pair.toRf).getD invalidDelayVal) := by
  induction gates generalizing delays with
  | nil => exact ⟨[], by simp, by simp [arcDelayOffsets]⟩
  | cons head rest ih =>
    obtain ⟨block, run, size, found⟩ := head.getDelay_spec delays
    obtain ⟨blocks, later, others⟩ := ih (delays ++ block)
    refine ⟨block ++ blocks, ?_, fun gate base mem pair round => ?_⟩
    · rw [List.foldlM_cons,run,← List.append_assoc]
      exact later
    · rw [← List.append_assoc]
      rcases List.mem_cons.mp mem with here | there
      · obtain ⟨rfl, rfl⟩ := Prod.mk.inj here
        have bound := ArcGate.delayIdx_lt round
        rw [List.append_assoc,ArcGate.delayIdx_base,List.getElem?_append_right (Nat.le_add_right _ _),
          Nat.add_sub_cancel_left,
          List.getElem?_append_left (by omega),found pair round]
      · refine others gate base ?_ pair round
        rw [List.length_append,size]
        exact there

end Layout

/-- What a gate of the kernels reads behind its pointer for two of its pins is what was stored for them, inside the
array. -/
theorem cellArcDelay_stored (gates : List ArcGate) : ∃ delays, getDelays gates = some delays ∧
    ∀ gate base, (gate, base) ∈ arcDelayOffsets 0 gates → ∀ outputPinLocalIdx < gate.nOutputPin,
    ∀ inputPinIdx < gate.nInputPin,
      ∀ fromRf toRf, base + deviceArcIdx gate.nInputPin outputPinLocalIdx inputPinIdx fromRf toRf < delays.length ∧
        ∀ (n : Nat) (device : Gate n), device.nInputPin = gate.nInputPin →
          (device.setGateInfoByGlobalPointer delays base).cellArcDelay outputPinLocalIdx inputPinIdx fromRf toRf =
            (gate.arcDelay inputPinIdx fromRf (gate.nInputPin + outputPinLocalIdx) toRf).getD invalidDelayVal := by
  obtain ⟨blocks, run, found⟩ := getDelays_spec gates []
  refine ⟨[] ++ blocks, run, fun gate base mem outputPinLocalIdx output inputPinIdx input fromRf toRf => ?_⟩
  have read := found gate base mem ⟨gate.nInputPin + outputPinLocalIdx, inputPinIdx, toRf, fromRf⟩
    (ArcGate.mem_pinPairs.mpr ⟨Nat.le_add_right _ _, by dsimp only; omega, input⟩)
  have place : gate.delayIdx base ⟨gate.nInputPin + outputPinLocalIdx, inputPinIdx, toRf, fromRf⟩ =
      base + deviceArcIdx gate.nInputPin outputPinLocalIdx inputPinIdx fromRf toRf := by
    unfold ArcGate.delayIdx deviceArcIdx
    rw [riseFallEdgeIndex_device,Nat.add_sub_cancel_left,Nat.add_assoc]
  rw [place] at read
  obtain ⟨inside, -⟩ := List.getElem?_eq_some_iff.mp read
  refine ⟨inside, fun n device same => ?_⟩
  have value : (device.setGateInfoByGlobalPointer ([] ++ blocks) base).cellArcDelay outputPinLocalIdx inputPinIdx
    fromRf toRf =
      ([] ++ blocks).getD (base + deviceArcIdx device.nInputPin outputPinLocalIdx inputPinIdx fromRf toRf) 0 := rfl
  rw [value,same,List.getD_eq_getElem?_getD,read]
  rfl

end GTPower
