import GTPower.BusDecode
import GTPower.Cuts
import GTPower.FusedKernel

/-! Value changes of an FSDB file, counted per cycle while they are stored, and the intervals cut from the counts. -/
namespace GTPower

/-- A byte of a value change; `other` is none of the VCD states. -/
inductive FsdbBit where
  | zero
  | one
  | x
  | z
  | other
  deriving DecidableEq, Repr

/-- A variable of the file with the changes a traverse handle gives, in their order. -/
structure FsdbVar where
  bitSize : Nat
  changes : List (Nat × (Nat → FsdbBit))

def FsdbBit.vcdChar : FsdbBit → Option VcdChar
  | zero => some .zero
  | one => some .one
  | x => some .x
  | z => some .z
  | other => none

/-- States of a bus other than 0 and 1 are not supported and taken for 0. -/
def FsdbBit.digit : FsdbBit → Char
  | one => '1'
  | _ => '0'

def FsdbVar.change (var : FsdbVar) (vcPtr : Nat → FsdbBit) : Option VarChange :=
  if var.bitSize = 1 then (vcPtr 0).vcdChar.map .scalar
  else some (.bus (busValueOf ((List.range var.bitSize).map fun bit => (vcPtr bit).digit)) var.bitSize)

def addEvents (cycIdxToNEvent : List Nat) (cycle nEvent : Nat) : Option (List Nat) :=
  if cycle < cycIdxToNEvent.length then some (cycIdxToNEvent.modify cycle (· + nEvent)) else none

section Read
variable (clock : Clock) (timeMax : Nat)

/-- Changes from the last time on are left out. -/
def FsdbVar.readChanges (var : FsdbVar) : List (Nat × (Nat → FsdbBit)) → List VcdValue × List Nat →
    Option (List VcdValue × List Nat)
  | [], result => some result
  | (time, vcPtr) :: rest, (values, cycIdxToNEvent) =>
    if 0 < timeMax ∧ timeMax ≤ time then some (values, cycIdxToNEvent)
    else
      (var.change vcPtr).bind fun change =>
        (parseVarValue values time change).bind fun values =>
          (addEvents cycIdxToNEvent (clock.clkedWaveformIdx time) var.bitSize).bind fun cycIdxToNEvent =>
            var.readChanges rest (values, cycIdxToNEvent)

/-- The values of every variable and the events of every cycle. -/
def readVarChanges : List FsdbVar → List Nat → Option (List (List VcdValue) × List Nat)
  | [], cycIdxToNEvent => some ([], cycIdxToNEvent)
  | var :: rest, cycIdxToNEvent =>
    (var.readChanges clock timeMax var.changes ([], cycIdxToNEvent)).bind fun (values, cycIdxToNEvent) =>
      (readVarChanges rest cycIdxToNEvent).map fun (others, cycIdxToNEvent) => (values :: others, cycIdxToNEvent)

end Read

structure CycleSlicer where
  startCycle : Nat
  acc : Nat
  timeIntervals : List (Nat × Nat)

section Slicing
variable (maxEventNum vcdTimeUnitPerCycle : Nat)

def CycleSlicer.count (slicer : CycleSlicer) (cycle nEvent : Nat) : CycleSlicer :=
  let acc := slicer.acc + nEvent
  if maxEventNum ≤ acc then
    let endCycle := cycle + 1
    ⟨endCycle, 0, if slicer.startCycle < endCycle
      then slicer.timeIntervals ++ [(slicer.startCycle * vcdTimeUnitPerCycle, endCycle * vcdTimeUnitPerCycle)]
      else slicer.timeIntervals⟩
  else { slicer with acc }

/-- Without cycles or without room for events there is no slicing. -/
def timeSlicing (cycIdxToNEvent : List Nat) : Option (List (Nat × Nat)) :=
  let nCycle := cycIdxToNEvent.length
  if nCycle = 0 ∨ maxEventNum = 0 then none
  else
    let slicer := cycIdxToNEvent.zipIdx.foldl
      (fun (slicer : CycleSlicer) entry => slicer.count maxEventNum vcdTimeUnitPerCycle entry.2 entry.1) ⟨0, 0, []⟩
    some (if slicer.startCycle < nCycle
      then slicer.timeIntervals ++ [(slicer.startCycle * vcdTimeUnitPerCycle, nCycle * vcdTimeUnitPerCycle)]
      else slicer.timeIntervals)

end Slicing

/-- The effective last time: that of the last complete cycle, if there is one. -/
def fsdbMaxTime (clock : Clock) (rawMaxTime : Nat) : Nat :=
  let completeCycleMaxTime := rawMaxTime / clock.vcdTimeUnitPerCycle * clock.vcdTimeUnitPerCycle
  if 0 < completeCycleMaxTime then completeCycleMaxTime else rawMaxTime

/-- What reading a file leaves: the values of the variables, the last time and the intervals. -/
structure FsdbDump where
  values : List (List VcdValue)
  timeMax : Nat
  timeIntervals : List (Nat × Nat)
  deriving DecidableEq, Repr

def readFsdb (clock : Clock) (maxEventNum rawMaxTime : Nat) (vars : List FsdbVar) : Option FsdbDump :=
  let timeMax := fsdbMaxTime clock rawMaxTime
  let nCycle := ceilDiv timeMax clock.vcdTimeUnitPerCycle
  (readVarChanges clock timeMax vars (List.replicate nCycle 0)).bind fun (values, cycIdxToNEvent) =>
    (timeSlicing maxEventNum clock.vcdTimeUnitPerCycle cycIdxToNEvent).map fun timeIntervals =>
      ⟨values, timeMax, timeIntervals⟩

/-- Cutting the cycles behind each one with which at least `maxEventNum` events were counted since the last cut. The
last cycles may stay without. -/
def CycleCuts (maxEventNum : Nat) (cycIdxToNEvent : List Nat) (cuts : List Nat) : Prop :=
  ∃ groups rest, Cuts.Split id (maxEventNum - 1) groups rest cycIdxToNEvent ∧
    cuts = Cuts.ends 0 groups ++ if rest = [] then [] else [cycIdxToNEvent.length]

section Follows
variable {maxEventNum unit : Nat}

theorem CycleCuts.unique (cuts : CycleCuts maxEventNum counts times) (cuts' : CycleCuts maxEventNum counts times') :
    times = times' := by
  obtain ⟨groups, rest, split, rfl⟩ := cuts
  obtain ⟨groups', rest', split', rfl⟩ := cuts'
  obtain ⟨rfl, rfl⟩ := split.unique split'
  rfl

/-- The loop over the cycles, by the cycles counted so far. -/
def CycleSlicer.Follows (maxEventNum unit : Nat) (slicer : CycleSlicer) (counts : List Nat) : Prop :=
  ∃ groups rest, Cuts.Split id (maxEventNum - 1) groups rest counts ∧
    slicer.startCycle = groups.flatten.length ∧ slicer.acc = Cuts.total id rest ∧
    slicer.timeIntervals = Cuts.spans 0 ((Cuts.ends 0 groups).map (· * unit))

theorem lastCut (groups : List (List Nat)) (unit : Nat) :
    ((Cuts.ends 0 groups).map (· * unit)).getLast?.getD 0 = groups.flatten.length * unit := by
  have last := Cuts.getLast_ends 0 groups
  rw [List.getLast?_map]
  cases found : (Cuts.ends 0 groups).getLast? with
  | none =>
    rw [found] at last
    simp only [Option.getD_none,Nat.zero_add] at last
    simp [← last]
  | some cut =>
    rw [found] at last
    simp only [Option.getD_some,Nat.zero_add] at last
    simp [last]

theorem CycleSlicer.Follows.count {slicer : CycleSlicer} (follows : slicer.Follows maxEventNum unit counts)
    (some : 0 < maxEventNum)
    (nEvent : Nat) : (slicer.count maxEventNum unit counts.length nEvent).Follows maxEventNum unit
    (counts ++ [nEvent]) := by
  obtain ⟨groups, rest, split, start, acc, intervals⟩ := follows
  have weight : slicer.acc + nEvent = Cuts.total id (rest ++ [nEvent]) := by
    rw [Cuts.total_append,acc]
    simp [Cuts.total]
  have size : counts.length = groups.flatten.length + rest.length := by
    rw [← split.whole,List.length_append]
  unfold CycleSlicer.count
  dsimp only
  rw [weight]
  by_cases exceeds : maxEventNum ≤ Cuts.total id (rest ++ [nEvent])
  · rw [if_pos exceeds,if_pos (by omega)]
    refine ⟨_, _, split.cut (by omega), ?_, rfl, ?_⟩
    · rw [size]
      simp
      omega
    · dsimp only
      rw [Cuts.ends_concat,List.map_append,List.map_singleton,Cuts.spans_concat,← intervals,start,size,lastCut]
      congr 4
      simp
      omega
  · rw [if_neg exceeds]
    exact ⟨_, _, split.push (by omega), start, rfl, intervals⟩

theorem timeSlicing_spec (sliced : timeSlicing maxEventNum unit counts = some intervals) : ∃ cuts,
    CycleCuts maxEventNum counts cuts ∧ intervals = Cuts.spans 0 (cuts.map (· * unit)) := by
  unfold timeSlicing at sliced
  dsimp only at sliced
  split at sliced
  case isTrue => cases sliced
  case isFalse guards =>
    rw [not_or] at guards
    have running : ∀ (rest done : List Nat) (slicer : CycleSlicer), slicer.Follows maxEventNum unit done →
        ((rest.zipIdx done.length).foldl (fun (slicer : CycleSlicer) entry =>
          slicer.count maxEventNum unit entry.2 entry.1) slicer).Follows
          maxEventNum unit (done ++ rest) := by
      intro rest
      induction rest with
      | nil =>
        intro done slicer follows
        rw [List.append_nil]
        exact follows
      | cons nEvent rest ih =>
        intro done slicer follows
        have next := ih (done ++ [nEvent]) _ (follows.count (by omega) nEvent)
        rw [List.append_assoc,List.length_append] at next
        exact next
    obtain ⟨groups, rest, split, start, -, cuts⟩ := running counts [] ⟨0, 0, []⟩ ⟨[], [], .nil, rfl, rfl, rfl⟩
    rw [List.nil_append] at split
    have size : counts.length = groups.flatten.length + rest.length := by
      rw [← split.whole,List.length_append]
    refine ⟨_, ⟨groups, rest, split, rfl⟩, ?_⟩
    obtain rfl := Option.some.inj sliced
    rw [List.length_nil] at start cuts
    rw [start,cuts]
    by_cases left : rest = []
    · subst left
      rw [if_neg (by rw [size]; simp),if_pos rfl,List.append_nil]
    · have more := List.length_pos_iff.mpr left
      rw [if_pos (by omega),if_neg left,List.map_append,List.map_singleton,Cuts.spans_concat,lastCut]

end Follows
end GTPower
