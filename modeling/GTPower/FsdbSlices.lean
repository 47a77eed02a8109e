import GTPower.FsdbReader
import GTPower.TimeIntervals

/-! The intervals of the loop over the cycles: they cover the dump without a gap, and each but the last is as short as
it can be. -/
namespace GTPower

/-- Events of the cycles from `startCycle` on and before `endCycle`. -/
def eventsIn (cycIdxToNEvent : List Nat) (startCycle endCycle : Nat) : Nat :=
  ((cycIdxToNEvent.drop startCycle).take (endCycle - startCycle)).sum

/-- The cycles reach the number of events with the last of them. -/
def Shortest (maxEventNum : Nat) (cycIdxToNEvent : List Nat) (cycles : Nat × Nat) : Prop :=
  maxEventNum ≤ eventsIn cycIdxToNEvent cycles.1 cycles.2 ∧
    eventsIn cycIdxToNEvent cycles.1 (cycles.2 - 1) < maxEventNum

section Slices
variable {maxEventNum : Nat} {counts : List Nat}

theorem eventsIn_group (front group rest : List Nat) (count : Nat) :
    eventsIn (front ++ (group ++ rest)) front.length (front.length + count) = ((group ++ rest).take count).sum := by
  rw [eventsIn,List.drop_left,Nat.add_sub_cancel_left]

theorem shortest_spans {groups : List (List Nat)} (room : 0 < maxEventNum)
    (heavy : ∀ group ∈ groups, maxEventNum - 1 < Cuts.total id group)
    (shortest : ∀ group ∈ groups, Cuts.total id group.dropLast ≤ maxEventNum - 1) (front rest : List Nat) :
    List.IsChain (· < ·) (front.length :: Cuts.ends front.length groups) ∧
      ∀ span ∈ Cuts.spans front.length (Cuts.ends front.length groups),
        Shortest maxEventNum (front ++ (groups.flatten ++ rest)) span := by
  induction groups generalizing front with
  | nil => simp [Cuts.ends,Cuts.spans]
  | cons group groups ih =>
    have full := heavy group (List.mem_cons_self ..)
    have light := shortest group (List.mem_cons_self ..)
    rw [Cuts.total,List.map_id] at full light
    have some : 0 < group.length := List.length_pos_iff.mpr fun empty => by simp [empty] at full
    have later := ih (fun other mem => heavy other (List.mem_cons_of_mem _ mem))
      (fun other mem => shortest other (List.mem_cons_of_mem _ mem)) (front ++ group)
    rw [List.length_append] at later
    rw [Cuts.ends,Cuts.spans,List.flatten_cons,List.append_assoc]
    refine ⟨List.isChain_cons_cons.mpr ⟨by omega, later.1⟩, fun span mem => ?_⟩
    rcases List.mem_cons.mp mem with rfl | mem
    · have whole := eventsIn_group front group (groups.flatten ++ rest) group.length
      have less := eventsIn_group front group (groups.flatten ++ rest) (group.length - 1)
      rw [List.take_left] at whole
      rw [List.take_append_of_le_length (by omega),← List.dropLast_eq_take,← Nat.add_sub_assoc some] at less
      constructor
      · dsimp only
        rw [whole]
        omega
      · dsimp only
        rw [less]
        omega
    · have short := later.2 span mem
      rwa [List.append_assoc] at short

/-- The slices of the cycles: cycle-aligned and nonempty, each from the end of the one before, from 0 to the end of the
last cycle. Each but the last has at least `maxEventNum` events, and fewer without its last cycle. -/
theorem timeSlicing_shortest (clock : Clock) (cycles : counts ≠ []) (room : 1 ≤ maxEventNum) :
    ∃ slices : List (Nat × Nat), timeSlicing maxEventNum clock.vcdTimeUnitPerCycle counts =
        some (slices.map fun slice => (slice.1 * clock.vcdTimeUnitPerCycle, slice.2 * clock.vcdTimeUnitPerCycle)) ∧
      slices ≠ [] ∧ Follows 0 slices ∧
      Follows 0 (slices.map fun slice => (slice.1 * clock.vcdTimeUnitPerCycle, slice.2 * clock.vcdTimeUnitPerCycle)) ∧
      slices.getLast?.map Prod.snd = some counts.length ∧
      ∀ slice ∈ slices.dropLast, Shortest maxEventNum counts slice := by
  have unit := clock.vcdTimeUnitPerCycle_pos
  obtain ⟨intervals, sliced⟩ : ∃ intervals, timeSlicing maxEventNum clock.vcdTimeUnitPerCycle counts =
    some intervals := by
    have some : ¬(counts.length = 0 ∨ maxEventNum = 0) := by
      rw [List.length_eq_zero_iff]
      exact fun either => either.elim cycles (by omega)
    exact ⟨_, if_neg some⟩
  obtain ⟨cuts, ⟨groups, rest, split, cut⟩, spans⟩ := timeSlicing_spec sliced
  obtain ⟨chain, short⟩ := shortest_spans room split.heavy split.shortest [] rest
  rw [List.length_nil] at chain short
  rw [List.nil_append,split.whole] at short
  have reached := Cuts.getLast_ends 0 groups
  rw [Nat.zero_add] at reached
  have size : counts.length = groups.flatten.length + rest.length := by rw [← split.whole,List.length_append]
  -- the cuts behind the groups, and the end when cycles are left
  have slices : Cuts.spans 0 cuts = Cuts.spans 0 (Cuts.ends 0 groups) ++
      if rest = [] then [] else [(groups.flatten.length, counts.length)] := by
    rw [cut]
    by_cases left : rest = []
    · simp [left]
    · rw [if_neg left,if_neg left,Cuts.spans_concat,reached]
  have ascending : ∀ slice ∈ Cuts.spans 0 cuts, slice.1 < slice.2 := by
    intro slice mem
    rw [slices] at mem
    rcases List.mem_append.mp mem with closed | final
    · exact (Cuts.forall_spans (p := (· < ·)) 0 _).mpr chain slice closed
    · by_cases left : rest = []
      · simp [left] at final
      · have more := List.length_pos_iff.mpr left
        rw [if_neg left,List.mem_singleton] at final
        rw [final]
        dsimp only
        omega
  have ended : ((Cuts.spans 0 cuts).getLast?.map Prod.snd).getD 0 = counts.length := by
    rw [slices]
    by_cases left : rest = []
    · rw [if_pos left,List.append_nil,Cuts.lastEnd_spans,reached,size,left]
      rfl
    · rw [if_neg left]
      simp
  have follows : Follows 0 (Cuts.spans 0 cuts) := (follows_spans 0 cuts).mpr ((Cuts.forall_spans 0 cuts).mp ascending)
  have scaled : (Cuts.spans 0 cuts).map (fun slice =>
    (slice.1 * clock.vcdTimeUnitPerCycle, slice.2 * clock.vcdTimeUnitPerCycle)) =
      Cuts.spans 0 (cuts.map (· * clock.vcdTimeUnitPerCycle)) := by
    have map := Cuts.map_spans (· * clock.vcdTimeUnitPerCycle) 0 cuts
    rw [Nat.zero_mul] at map
    exact map
  have some : Cuts.spans 0 cuts ≠ [] := fun empty => by
    rw [empty] at ended
    exact cycles (List.length_eq_zero_iff.mp ended.symm)
  refine ⟨Cuts.spans 0 cuts, by rw [sliced,spans,scaled], some, follows, ?_, ?_, fun slice mem => short slice ?_⟩
  · rw [scaled,follows_spans,← Cuts.forall_spans,← scaled]
    intro span mem
    obtain ⟨slice, there, rfl⟩ := List.mem_map.mp mem
    exact Nat.mul_lt_mul_of_pos_right (ascending slice there) unit
  · cases found : (Cuts.spans 0 cuts).getLast? with
    | none => exact absurd (List.getLast?_eq_none_iff.mp found) some
    | some slice =>
      rw [found] at ended
      exact congrArg Option.some ended
  · rw [slices] at mem
    by_cases left : rest = []
    · rw [if_pos left,List.append_nil] at mem
      exact List.mem_of_mem_dropLast mem
    · rwa [if_neg left,List.dropLast_concat] at mem

/-- The first two cycles reach the number with the second of them; the last one has an interval of its own. -/
theorem timeSlicing_shortest_three : ∃ slices :
    List (Nat × Nat), timeSlicing 3 (tenTickClock 30).vcdTimeUnitPerCycle [2, 5, 0] =
      some (slices.map fun slice =>
        (slice.1 * (tenTickClock 30).vcdTimeUnitPerCycle, slice.2 * (tenTickClock 30).vcdTimeUnitPerCycle)) ∧
    slices ≠ [] ∧ Follows 0 slices ∧
    Follows 0 (slices.map fun slice =>
      (slice.1 * (tenTickClock 30).vcdTimeUnitPerCycle, slice.2 * (tenTickClock 30).vcdTimeUnitPerCycle)) ∧
    slices.getLast?.map Prod.snd = some 3 ∧ ∀ slice ∈ slices.dropLast, Shortest 3 [2, 5, 0] slice :=
  timeSlicing_shortest (tenTickClock 30) (by decide) (by decide)

end Slices
end GTPower
