import GTPower.CpuGlitch
import Mathlib.Data.List.Basic

/-! The flags of any range of records: those of a cycle are flagged in pairs from its first one on, so that at most the
last one stays without a flag. -/
namespace GTPower

section Flags
variable (clock : Clock) (timeOf : Nat → Nat)

/-- The records of a cycle from `startIdx` on and before `pos`, without the initial one of the list. -/
def cycleEvents (startIdx pos period : Nat) : List Nat :=
  (List.range' startIdx (pos - startIdx)).filter fun idx => idx ≠ 0 ∧ clock.clkedWaveformIdx (timeOf idx) = period

def paired (idxes : List Nat) : List Nat := idxes.take (idxes.length - idxes.length % 2)

variable {clock timeOf}

theorem mem_cycleEvents : idx ∈ cycleEvents clock timeOf startIdx pos period ↔
    startIdx ≤ idx ∧ idx < pos ∧ idx ≠ 0 ∧ clock.clkedWaveformIdx (timeOf idx) = period := by
  simp only [cycleEvents,List.mem_filter,List.mem_range'_1,decide_eq_true_eq]
  omega

theorem mem_of_mem_paired {idxes : List Nat} (mem : idx ∈ paired idxes) : idx ∈ idxes := List.mem_of_mem_take mem

theorem cycleEvents_succ (started : startIdx ≤ pos) (later : pos ≠ 0) (period : Nat) :
    cycleEvents clock timeOf startIdx (pos + 1) period = cycleEvents clock timeOf startIdx pos period ++
      if clock.clkedWaveformIdx (timeOf pos) = period then [pos] else [] := by
  have more : pos + 1 - startIdx = (pos - startIdx) + 1 := by omega
  have last : startIdx + 1 * (pos - startIdx) = pos := by omega
  rw [cycleEvents,more,List.range'_concat,List.filter_append,last,cycleEvents]
  congr 1
  by_cases here : clock.clkedWaveformIdx (timeOf pos) = period <;> simp [here,later]

theorem flagPeriod_iff {idxes : List Nat} (flags : Nat → Bool) (low : ∀ idx ∈ idxes, startIdx ≤ idx)
    (here : startIdx ≤ idx) :
    flagPeriod startIdx flags idxes (idx - startIdx) = true ↔ flags (idx - startIdx) = true ∨ idx ∈ paired idxes := by
  have marks : ∀ (l : List Nat) (flags : Nat → Bool), (∀ idx ∈ l, startIdx ≤ idx) →
      (l.foldl (fun flags idx => Function.update flags (idx - startIdx) true) flags (idx - startIdx) = true ↔
        flags (idx - startIdx) = true ∨ idx ∈ l) := by
    intro l
    induction l with
    | nil => simp
    | cons head rest ih =>
      intro flags low
      have above := low head (List.mem_cons_self ..)
      rw [List.foldl_cons,ih _ fun other mem => low other (List.mem_cons_of_mem _ mem),List.mem_cons]
      by_cases same : idx = head
      · simp [same]
      · rw [Function.update_of_ne (by omega)]
        simp [same]
  have size : (if idxes.length % 2 = 0 then idxes.length else idxes.length - 1) = idxes.length - idxes.length % 2 := by
    split <;> omega
  rw [flagPeriod,size]
  split
  case isTrue => exact marks _ flags fun other mem => low other (List.mem_of_mem_take mem)
  case isFalse short =>
    have none : idxes.length - idxes.length % 2 = 0 := by omega
    simp [paired,none]

/-- The scan before `pos`: the records of its cycle are kept, those of the other cycles have their flags. -/
structure RangeScanned (clock : Clock) (timeOf : Nat → Nat) (startIdx pos : Nat) (st : PeriodScan) : Prop where
  period : st.curPeriodIdx = clock.clkedWaveformIdx (timeOf (pos - 1))
  idxes : st.curPeriodEventIdxes = cycleEvents clock timeOf startIdx pos (clock.clkedWaveformIdx (timeOf (pos - 1)))
  flags : ∀ idx, startIdx ≤ idx → (st.eventGlitchFlags (idx - startIdx) = true ↔
    clock.clkedWaveformIdx (timeOf idx) ≠ clock.clkedWaveformIdx (timeOf (pos - 1)) ∧
      idx ∈ paired (cycleEvents clock timeOf startIdx pos (clock.clkedWaveformIdx (timeOf idx))))

theorem RangeScanned.close (scanned : RangeScanned clock timeOf startIdx pos st) (here : startIdx ≤ idx) :
    flagPeriod startIdx st.eventGlitchFlags st.curPeriodEventIdxes (idx - startIdx) = true ↔
      idx ∈ paired (cycleEvents clock timeOf startIdx pos (clock.clkedWaveformIdx (timeOf idx))) := by
  rw [scanned.idxes,flagPeriod_iff _ (fun other mem => (mem_cycleEvents.mp mem).1) here,scanned.flags idx here]
  by_cases same : clock.clkedWaveformIdx (timeOf idx) = clock.clkedWaveformIdx (timeOf (pos - 1))
  · simp [same]
  · have other : idx ∉ paired (cycleEvents clock timeOf startIdx pos (clock.clkedWaveformIdx (timeOf (pos - 1)))) :=
      fun mem =>
      same (mem_cycleEvents.mp (mem_of_mem_paired mem)).2.2.2
    simp [same,other]

section Sorted
variable (mono : ∀ i j, startIdx ≤ i → i ≤ j → j < endIdx →
    clock.clkedWaveformIdx (timeOf i) ≤ clock.clkedWaveformIdx (timeOf j))
include mono

theorem cycleEvents_new (started : startIdx < pos) (within : pos < endIdx)
    (new : clock.clkedWaveformIdx (timeOf pos) ≠ clock.clkedWaveformIdx (timeOf (pos - 1))) :
    cycleEvents clock timeOf startIdx pos (clock.clkedWaveformIdx (timeOf pos)) = [] := by
  apply List.eq_nil_iff_forall_not_mem.mpr
  intro idx mem
  obtain ⟨low, less, -, same⟩ := mem_cycleEvents.mp mem
  have early := mono idx (pos - 1) low (by omega) (by omega)
  have late := mono (pos - 1) pos (by omega) (Nat.sub_le ..) within
  omega

theorem RangeScanned.step (scanned : RangeScanned clock timeOf startIdx pos st) (started : startIdx < pos)
    (within : pos < endIdx) :
    RangeScanned clock timeOf startIdx (pos + 1) (scanEvent clock timeOf startIdx st pos) := by
  have later : pos ≠ 0 := by omega
  have more (period : Nat) : cycleEvents clock timeOf startIdx (pos + 1) period = _ :=
    cycleEvents_succ (Nat.le_of_lt started) later period
  have period := scanned.period
  unfold scanEvent
  by_cases same : clock.clkedWaveformIdx (timeOf pos) = st.curPeriodIdx
  · rw [period] at same
    refine ⟨?_, ?_, fun idx here => ?_⟩
    all_goals simp only [period,same,if_true,Nat.add_sub_cancel,more]
    · rw [scanned.idxes]
    · rw [scanned.flags idx here]
      refine and_congr_right fun other => ?_
      rw [if_neg (Ne.symm other),List.append_nil]
  · rw [period] at same
    have new := cycleEvents_new mono started within same
    refine ⟨?_, ?_, fun idx here => ?_⟩
    all_goals simp only [period,if_neg same,Nat.add_sub_cancel,more]
    · simp [new]
    · rw [scanned.close here]
      by_cases here : clock.clkedWaveformIdx (timeOf idx) = clock.clkedWaveformIdx (timeOf pos)
      · simp [here,new,paired]
      · rw [if_neg (Ne.symm here),List.append_nil]
        simp [here]

theorem rangeScanned_foldl (count : Nat) (within : startIdx + 1 + count ≤ endIdx) :
    RangeScanned clock timeOf startIdx (startIdx + 1 + count)
      ((List.range' (startIdx + 1) count).foldl (scanEvent clock timeOf startIdx)
        ⟨fun _ => false, if startIdx ≠ 0 then [startIdx] else [], clock.clkedWaveformIdx (timeOf startIdx)⟩) := by
  induction count with
  | zero =>
    refine ⟨rfl, ?_, fun idx here => ⟨(fun set => by cases set), fun ⟨other, mem⟩ => ?_⟩⟩
    · by_cases first : startIdx = 0 <;> simp [cycleEvents,first]
    · obtain ⟨low, less, -⟩ := mem_cycleEvents.mp (mem_of_mem_paired mem)
      have only : idx = startIdx := by omega
      exact absurd (by rw [only]; rfl) other
  | succ count ih =>
    rw [List.range'_concat,List.foldl_append,Nat.one_mul]
    exact (ih (by omega)).step mono (by omega) (by omega)

theorem glitchFlag_iff_paired (low : startIdx ≤ idx) (high : idx < endIdx) :
    getEventClockCycleBasedGlitchFlags clock timeOf startIdx endIdx (idx - startIdx) = true ↔
      idx ∈ paired (cycleEvents clock timeOf startIdx endIdx (clock.clkedWaveformIdx (timeOf idx))) := by
  have scanned := rangeScanned_foldl mono (endIdx - (startIdx + 1)) (by omega)
  have all : startIdx + 1 + (endIdx - (startIdx + 1)) = endIdx := by omega
  rw [all] at scanned
  rw [getEventClockCycleBasedGlitchFlags,if_neg (by omega)]
  exact scanned.close low

/-- The records of a cycle follow each other: they end at `pos`, or the cycle is over. -/
theorem cycleEvents_range' (period count : Nat) (within : startIdx + count ≤ endIdx) :
    ∃ first, cycleEvents clock timeOf startIdx (startIdx + count) period =
        List.range' first (cycleEvents clock timeOf startIdx (startIdx + count) period).length ∧
      (cycleEvents clock timeOf startIdx (startIdx + count) period ≠ [] →
        first + (cycleEvents clock timeOf startIdx (startIdx + count) period).length = startIdx + count ∨
          ∀ idx, startIdx + count ≤ idx → idx < endIdx → clock.clkedWaveformIdx (timeOf idx) ≠ period) := by
  induction count with
  | zero => exact ⟨startIdx, by simp [cycleEvents], by simp [cycleEvents]⟩
  | succ count ih =>
    obtain ⟨first, consecutive, ends⟩ := ih (by omega)
    by_cases initial : startIdx + count = 0
    · have none : cycleEvents clock timeOf startIdx (startIdx + (count + 1)) period = [] := by
        apply List.eq_nil_iff_forall_not_mem.mpr
        intro idx mem
        obtain ⟨_, less, nonzero, _⟩ := mem_cycleEvents.mp mem
        omega
      exact ⟨first, by rw [none]; rfl, by simp [none]⟩
    have more : cycleEvents clock timeOf startIdx (startIdx + count + 1) period = _ :=
      cycleEvents_succ (Nat.le_add_right startIdx count) initial period
    rw [Nat.add_assoc] at more
    by_cases here : clock.clkedWaveformIdx (timeOf (startIdx + count)) = period
    · rw [if_pos here] at more
      by_cases empty : cycleEvents clock timeOf startIdx (startIdx + count) period = []
      · rw [empty,List.nil_append] at more
        exact ⟨startIdx + count, by simp [more], fun _ => Or.inl (by rw [more]; rfl)⟩
      · have joined := (ends empty).resolve_right fun past => past _ (Nat.le_refl _) (by omega) here
        refine ⟨first, ?_, fun _ => Or.inl ?_⟩
        · rw [more,List.length_append,List.length_singleton,List.range'_concat,← consecutive,Nat.one_mul,joined]
        · rw [more,List.length_append,List.length_singleton]
          omega
    · rw [if_neg here,List.append_nil] at more
      rw [more]
      refine ⟨first, consecutive, fun some => Or.inr fun idx low high same => ?_⟩
      rcases ends some with joined | past
      · obtain ⟨k, mem⟩ := List.exists_mem_of_ne_nil _ some
        obtain ⟨lowk, lessk, -, samek⟩ := mem_cycleEvents.mp mem
        have early := mono k (startIdx + count) lowk (by omega) (by omega)
        have late := mono (startIdx + count) idx (by omega) (by omega) high
        omega
      · exact past idx (by omega) high same

end Sorted

/-- In a list with nondecreasing times a record of the range is flagged when its place among the `k` records of its
cycle, the initial one apart, is below `k` rounded down to an even number. In each cycle the flagged ones are
consecutive pairs, and `k % 2` are left. -/
theorem glitchFlags_spec (sorted : ∀ i j, i ≤ j → j < endIdx → timeOf i ≤ timeOf j) :
    (∀ idx, startIdx ≤ idx → idx < endIdx →
      (getEventClockCycleBasedGlitchFlags clock timeOf startIdx endIdx (idx - startIdx) = true ↔ idx ≠ 0 ∧
        let events := cycleEvents clock timeOf startIdx endIdx (clock.clkedWaveformIdx (timeOf idx))
        events.idxOf idx < events.length - events.length % 2)) ∧
    ∀ period,
      let events := cycleEvents clock timeOf startIdx endIdx period
      let flagged := fun idx => getEventClockCycleBasedGlitchFlags clock timeOf startIdx endIdx (idx - startIdx)
      (events.filter fun idx => !flagged idx).length = events.length % 2 ∧
        ∃ first, events = List.range' first events.length ∧
          events.filter flagged = List.range' first (2 * (events.length / 2)) := by
  have mono : ∀ i j, startIdx ≤ i → i ≤ j → j < endIdx →
    clock.clkedWaveformIdx (timeOf i) ≤ clock.clkedWaveformIdx (timeOf j) :=
    fun i j _ order high => clock.clkedWaveformIdx_mono (sorted i j order high)
  refine ⟨fun idx low high => ?_, fun period => ?_⟩
  · rw [glitchFlag_iff_paired mono low high]
    by_cases initial : idx = 0
    · have out : idx ∉ paired (cycleEvents clock timeOf startIdx endIdx (clock.clkedWaveformIdx (timeOf idx))) :=
        fun mem =>
        (mem_cycleEvents.mp (mem_of_mem_paired mem)).2.2.1 initial
      simp [initial] at out ⊢
      exact out
    · have mem : idx ∈ cycleEvents clock timeOf startIdx endIdx (clock.clkedWaveformIdx (timeOf idx)) :=
        mem_cycleEvents.mpr ⟨low, high, initial, rfl⟩
      rw [paired,List.mem_take_iff_idxOf_lt mem]
      simp [initial]
  · intro events flagged
    let pairs := events.length - events.length % 2
    have marks : ∀ idx ∈ events, (flagged idx = true ↔ idx ∈ events.take pairs) := fun idx mem => by
      obtain ⟨low, high, _, same⟩ := mem_cycleEvents.mp mem
      have flag := glitchFlag_iff_paired mono low high
      rw [same] at flag
      exact flag
    have distinct : events.Nodup := List.Nodup.filter _ (List.nodup_range' ..)
    have apart := List.disjoint_take_drop distinct (Nat.le_refl pairs)
    have whole := List.take_append_drop pairs events
    have front : ∀ idx ∈ events.take pairs, flagged idx = true :=
      fun idx mem => (marks idx (List.mem_of_mem_take mem)).mpr mem
    have back : ∀ idx ∈ events.drop pairs, flagged idx = false := fun idx mem =>
      Bool.eq_false_iff.mpr fun set => apart ((marks idx (List.mem_of_mem_drop mem)).mp set) mem
    constructor
    · have left : (events.filter fun idx => !flagged idx) = events.drop pairs := by
        nth_rewrite 1 [← whole]
        rw [List.filter_append,List.filter_eq_nil_iff.mpr (by simpa using front),
          List.filter_eq_self.mpr (by simpa using back)]
        rfl
      rw [left,List.length_drop]
      have := Nat.mod_le events.length 2
      omega
    · have set : events.filter flagged = events.take pairs := by
        nth_rewrite 1 [← whole]
        rw [List.filter_append,List.filter_eq_self.mpr front,List.filter_eq_nil_iff.mpr (by simpa using back),
          List.append_nil]
      by_cases nonempty : startIdx ≤ endIdx
      · obtain ⟨first, consecutive, -⟩ := cycleEvents_range' mono period (endIdx - startIdx) (by omega)
        rw [Nat.add_sub_cancel' nonempty] at consecutive
        refine ⟨first, consecutive, ?_⟩
        have even : pairs = 2 * (events.length / 2) := by omega
        rw [set,even]
        exact (congrArg (List.take _) consecutive).trans
          (List.take_range'_of_length_ge (Nat.mul_div_le events.length 2))
      · have none : events = [] := by
          apply List.eq_nil_iff_forall_not_mem.mpr
          intro idx mem
          obtain ⟨low, high, -⟩ := mem_cycleEvents.mp mem
          omega
        exact ⟨startIdx, by rw [none]; rfl, by rw [none]; rfl⟩

/-- Three records follow the initial one in its cycle: the last of them stays without a flag. -/
theorem glitchFlags_spec_third :
    getEventClockCycleBasedGlitchFlags (tenTickClock 20) (fun idx => 3 * idx) 0 6 (3 - 0) = true ↔ 3 ≠ 0 ∧
      let events := cycleEvents (tenTickClock 20) (fun idx => 3 * idx) 0 6 ((tenTickClock 20).clkedWaveformIdx (3 * 3))
      events.idxOf 3 < events.length - events.length % 2 :=
  (glitchFlags_spec fun _ _ order _ => Nat.mul_le_mul_left 3 order).1 3 (Nat.zero_le 3) (by decide)

end Flags
end GTPower
