import GTPower.SeparateKernels

/-! The order in which the fused kernel takes the records of one time, and what the threads of the records find of
them. The fused kernel takes one record of each pin in a turn, by the indices of the records. -/
namespace GTPower

section Order
variable {key : Fin n → Nat}

/-- The order in which the fused kernel takes the pins of one time: by record index, equal ones by pin. -/
def precedes (key : Fin n → Nat) (a b : Fin n) : Prop := key a < key b ∨ key a = key b ∧ a < b

instance : Decidable (precedes key a b) := inferInstanceAs (Decidable (_ ∨ _))

theorem precedes_irrefl (pin : Fin n) : ¬ precedes key pin pin := by
  rintro (less | ⟨-, less⟩)
  · exact Nat.lt_irrefl _ less
  · exact lt_irrefl _ less

theorem precedes_trans (first : precedes key a b) (second : precedes key b c) : precedes key a c := by
  rcases first with less | ⟨same, less⟩ <;> rcases second with less' | ⟨same', less'⟩
  · exact Or.inl (Nat.lt_trans less less')
  · exact Or.inl (same' ▸ less)
  · exact Or.inl (same ▸ less')
  · exact Or.inr ⟨same.trans same', lt_trans less less'⟩

theorem precedes_asymm (before : precedes key a b) : ¬ precedes key b a :=
  fun after => precedes_irrefl a (precedes_trans before after)

theorem shiftGreater_ordered (pin : Fin n) (sorted : List (Fin n)) (later : ∀ other ∈ sorted, other < pin)
    (ordered : sorted.Pairwise fun a b => precedes key b a) :
    (shiftGreater key pin sorted).Pairwise fun a b => precedes key b a := by
  induction sorted with
  | nil => exact List.pairwise_singleton _ _
  | cons other rest ih =>
    obtain ⟨head, ordered⟩ := List.pairwise_cons.mp ordered
    have beyond := later other (List.mem_cons_self ..)
    simp only [shiftGreater]
    split
    case isTrue less =>
      refine List.pairwise_cons.mpr ⟨fun a mem => ?_, ih (fun a mem => later a (List.mem_cons_of_mem _ mem)) ordered⟩
      rcases List.mem_cons.mp ((shiftGreater_perm key pin rest).mem_iff.mp mem) with rfl | old
      · exact Or.inl less
      · exact head a old
    case isFalse atLeast =>
      have here : precedes key other pin := by
        rcases Nat.eq_or_lt_of_le (Nat.le_of_not_lt atLeast) with same | less
        · exact Or.inr ⟨same, beyond⟩
        · exact Or.inl less
      refine List.pairwise_cons.mpr ⟨fun a mem => ?_, List.pairwise_cons.mpr ⟨head, ordered⟩⟩
      rcases List.mem_cons.mp mem with rfl | old
      · exact here
      · exact precedes_trans (head a old) here

theorem sortTriggered_ordered (pins : List (Fin n)) (increasing : pins.Pairwise (· < ·)) :
    (sortTriggered key pins).Pairwise (precedes key) := by
  have sorting : ∀ sorted : List (Fin n), sorted.Pairwise (fun a b => precedes key b a) →
      (∀ other ∈ sorted, ∀ pin ∈ pins, other < pin) →
      (pins.foldl (fun sorted pin => shiftGreater key pin sorted) sorted).Pairwise fun a b => precedes key b a := by
    induction pins with
    | nil => intro sorted ordered _; exact ordered
    | cons pin rest ih =>
      obtain ⟨head, increasing⟩ := List.pairwise_cons.mp increasing
      intro sorted ordered below
      refine ih increasing _ (shiftGreater_ordered pin sorted (fun other mem =>
        below other mem pin (List.mem_cons_self ..))
        ordered) fun other mem later memLater => ?_
      rcases List.mem_cons.mp ((shiftGreater_perm key pin sorted).mem_iff.mp mem) with rfl | old
      · exact head later memLater
      · exact below other old later (List.mem_cons_of_mem _ memLater)
  exact List.pairwise_reverse.mpr (sorting [] List.Pairwise.nil fun _ none => absurd none List.not_mem_nil)

theorem triggeredPins_ordered : (triggeredPins events stops pos now).Pairwise (precedes pos) :=
  sortTriggered_ordered _ ((List.pairwise_lt_finRange _).filter _)

end Order

section Records
variable {gate : Gate n} {events : Nat → Event} {clock : Clock}

/-- States a record of the fused kernel is taken in: the pins taken before it already have their values. -/
def statesBefore (events : Nat → Event) (pos : Fin n → Nat) (states : Fin n → Int) (pins : List (Fin n))
    (pin other : Fin n) :
    Int :=
  if other ∈ pins ∧ precedes pos other pin then (events (pos other)).val else states other

/-- Every record of a round, taken in its order, sees the states its place in the order tells. -/
theorem takeRecords_eq_map (pins : List (Fin n)) (ordered : pins.Pairwise (precedes pos)) (states : Fin n → Int) :
    takeRecords gate events clock before now pos states pins = pins.map fun pin =>
      recordAt gate events clock before (statesBefore events pos states pins pin) now pin (pos pin) := by
  induction pins generalizing states with
  | nil => rfl
  | cons pin rest ih =>
    obtain ⟨head, ordered⟩ := List.pairwise_cons.mp ordered
    rw [takeRecords,List.map_cons,ih ordered]
    congr 1
    · congr 1
      funext other
      rw [statesBefore,if_neg]
      rintro ⟨mem, early⟩
      rcases List.mem_cons.mp mem with rfl | later
      · exact precedes_irrefl other early
      · exact precedes_asymm (head other later) early
    · apply List.map_congr_left
      intro pin' mem
      congr 1
      funext other
      have first : precedes pos pin pin' := head pin' mem
      have fresh : pin ∉ rest := fun again => precedes_irrefl pin (head pin again)
      by_cases same : other = pin
      · subst same
        simp [statesBefore,fresh,first]
      · simp [statesBefore,same]

theorem roundProcessed_eq_map (entry : Nat × (Fin n → Nat)) : roundProcessed gate events clock stops entry =
    (triggeredPins events stops entry.2 entry.1).map fun pin =>
      recordAt gate events clock (statesAt gate events entry.2)
        (statesBefore events entry.2 (statesAt gate events entry.2) (triggeredPins events stops entry.2 entry.1) pin)
        entry.1 pin (entry.2 pin) :=
  takeRecords_eq_map _ triggeredPins_ordered _

end Records

section States
variable (gate : Gate n) (events : Nat → Event)

/-- Records of a pin at a time, the first record of its range apart. -/
def sameTimeCount (now : Nat) (pin : Fin n) : Nat :=
  firstEventIdxes gate events (now + 1) pin - firstEventIdxes gate events now pin

/-- State of a pin after so many of its records of a time. -/
def stateAfter (now : Nat) (pin : Fin n) (count : Nat) : Int :=
  statesAt gate events (fun other => firstEventIdxes gate events now other + count) pin

/-- Place of a record among those of its pin at its time, from 0. -/
def sameTimePlace (pin : Fin n) (eventIdx : Nat) : Nat :=
  eventIdx - firstEventIdxes gate events (events eventIdx).time pin

/-- Records of a pin that the fused kernel takes before a record of the same time: one of each pin in a turn. -/
def recordsTakenBefore (pin : Fin n) (eventIdx : Nat) (other : Fin n) : Nat :=
  min (sameTimeCount gate events (events eventIdx).time other)
    (sameTimePlace gate events pin eventIdx +
      if precedes (firstEventIdxes gate events (events eventIdx).time) other pin then 1 else 0)

/-- Records of a pin that the thread of a record finds before it: those with a smaller index. -/
def recordsFoundBefore (eventIdx : Nat) (other : Fin n) : Nat :=
  min (sameTimeCount gate events (events eventIdx).time other)
    (eventIdx - firstEventIdxes gate events (events eventIdx).time other)

variable {gate events} {clock : Clock} {interval : Periods}

theorem firstEventIdxes_mono (loaded : Loaded gate events clock interval) (later : time ≤ time') (pin : Fin n) :
    firstEventIdxes gate events time pin ≤ firstEventIdxes gate events time' pin := by
  have mono := pinEventIdxes_mono loaded later pin
  cases waveform : gate.pinWaveforms pin with
  | none => simp [firstEventIdxes,waveform]
  | some range =>
    simp only [firstEventIdxes,waveform]
    omega

/-- The records of a time are those between the first one and the first one after it. -/
theorem sameTime_iff (loaded : Loaded gate events clock interval) (waveform : gate.pinWaveforms pin = some range)
    (low : firstEventIdxes gate events now pin ≤ k) :
    k < firstEventIdxes gate events now pin + sameTimeCount gate events now pin ↔
      k < range.stop ∧ (events k).time = now := by
  have mono := firstEventIdxes_mono loaded (Nat.le_add_right now 1) pin
  have bound : pinEventIdxes gate events (now + 1) pin ≤ range.stop := pinEventIdxes_le loaded waveform
  have early : pinEventIdxes gate events now pin ≤ k := Nat.le_trans (le_firstEventIdxes pin) low
  have first : range.start + 1 ≤ k := by simp only [firstEventIdxes,waveform] at low; omega
  have joined : firstEventIdxes gate events now pin + sameTimeCount gate events now pin =
      max (range.start + 1) (pinEventIdxes gate events (now + 1) pin) := by
    have last : firstEventIdxes gate events (now + 1) pin =
        max (range.start + 1) (pinEventIdxes gate events (now + 1) pin) := by simp only [firstEventIdxes,waveform]
    rw [← last,sameTimeCount]
    omega
  rw [joined]
  constructor
  · intro less
    have inside : k < range.stop := by omega
    have upto := (lt_pinEventIdxes_iff loaded (now + 1) waveform (by omega) inside).mp (by omega)
    have after := (lt_pinEventIdxes_iff loaded now waveform (by omega) inside).not.mp (by omega)
    exact ⟨inside, by omega⟩
  · rintro ⟨inside, time⟩
    have found := (lt_pinEventIdxes_iff loaded (now + 1) waveform (by omega) inside).mpr (by omega)
    omega

theorem sameTimeCount_silent (waveform : gate.pinWaveforms pin = none) : sameTimeCount gate events now pin = 0 := by
  simp [sameTimeCount,firstEventIdxes,waveform]

/-- After some rounds of a time a pin is due while it has more records of that time than rounds. -/
theorem due_iff_round (loaded : Loaded gate events clock interval) (early : now < stop)
    (here : pos pin = firstEventIdxes gate events now pin + min turn (sameTimeCount gate events now pin)) :
    Frontier.due (recordTime events) (pinEventIdxes gate events stop) pos now pin ↔
      turn < sameTimeCount gate events now pin := by
  rw [Frontier.due_iff]
  cases waveform : gate.pinWaveforms pin with
  | none => simp [silent_pinEventIdxes pin waveform,sameTimeCount_silent waveform]
  | some range =>
    have low : firstEventIdxes gate events now pin ≤ pos pin := by omega
    have first : range.start + 1 ≤ pos pin := by simp only [firstEventIdxes,waveform] at low; omega
    have sameTime := sameTime_iff loaded waveform low
    constructor
    · rintro ⟨more, time⟩
      have inside := Nat.lt_of_lt_of_le more (pinEventIdxes_le loaded waveform)
      have reached := sameTime.mpr ⟨inside, time⟩
      omega
    · intro less
      obtain ⟨inside, time⟩ := sameTime.mp (by omega)
      exact ⟨(lt_pinEventIdxes_iff loaded stop waveform (by omega) inside).mpr (by omega), time⟩

/-- Where the frontier stands when the next time comes: some rounds into that time. -/
theorem positions_next (loaded : Loaded gate events clock interval)
    (here : ∀ pin, pos pin = firstEventIdxes gate events now pin + min turn (sameTimeCount gate events now pin))
    (next : Frontier.nextTime? (List.finRange n) (recordTime events) (pinEventIdxes gate events stop) pos = some time) :
    time < stop ∧ now ≤ time ∧
      ∃ turn', ∀ pin, pos pin = firstEventIdxes gate events time pin +
        min turn' (sameTimeCount gate events time pin) := by
  obtain ⟨⟨first, -, hit⟩, least⟩ := Frontier.nextTime?_eq_some_iff.mp next
  obtain ⟨more, same⟩ := Frontier.due_iff.mp hit
  have onward : firstEventIdxes gate events now first ≤ pos first := by rw [here first]; omega
  obtain ⟨-, -, -, -, late, early⟩ := pending_record loaded onward more
  simp only [recordTime] at same
  refine ⟨by omega, by omega, ?_⟩
  rcases Nat.eq_or_lt_of_le (show now ≤ time by omega) with rfl | later
  · exact ⟨turn, here⟩
  · -- all records before the new time are passed, and none of it
    refine ⟨0, fun pin => ?_⟩
    have spot := here pin
    cases waveform : gate.pinWaveforms pin with
    | none =>
      rw [sameTimeCount_silent waveform] at spot ⊢
      simpa [firstEventIdxes,waveform] using spot
    | some range =>
      have upto : pos pin ≤ firstEventIdxes gate events time pin := by
        have mono : firstEventIdxes gate events (now + 1) pin ≤ firstEventIdxes gate events time pin :=
          firstEventIdxes_mono loaded later pin
        have one := firstEventIdxes_mono loaded (Nat.le_add_right now 1) pin
        simp only [sameTimeCount] at spot
        omega
      have reached : firstEventIdxes gate events time pin ≤ pos pin := by
        by_contra behind
        have start : range.start + 1 ≤ firstEventIdxes gate events now pin := by
          simp only [firstEventIdxes,waveform]
          omega
        have found : pos pin < pinEventIdxes gate events time pin := by
          simp only [firstEventIdxes,waveform] at behind
          omega
        have inside := Nat.lt_of_lt_of_le found (pinEventIdxes_le loaded waveform)
        have before := (lt_pinEventIdxes_iff loaded time waveform (by omega) inside).mp found
        have pending := (lt_pinEventIdxes_iff loaded stop waveform (by omega) inside).mpr (by omega)
        have bound := least pin (List.mem_finRange pin) pending
        simp only [recordTime] at bound
        omega
      omega

/-- The fused kernel takes the records of a time in rounds, from each pin that has one left. -/
theorem positions_of_round (loaded : Loaded gate events clock interval)
    (mem : entry ∈ roundsBetween gate events start stop) :
    entry.1 < stop ∧ start ≤ entry.1 ∧ ∃ turn, ∀ pin,
      entry.2 pin = firstEventIdxes gate events entry.1 pin + min turn (sameTimeCount gate events entry.1 pin) := by
  have held := Frontier.schedule_invariant
    (fun pos => ∃ now turn, start ≤ now ∧
      ∀ pin, pos pin = firstEventIdxes gate events now pin + min turn (sameTimeCount gate events now pin))
    (fun pos time next ⟨now, turn, late, here⟩ => by
      obtain ⟨early, onward, turn', there⟩ := positions_next loaded here next
      refine ⟨time, turn' + 1, Nat.le_trans late onward, fun pin => ?_⟩
      have due := due_iff_round loaded early (there pin)
      by_cases hit : Frontier.due (recordTime events) (pinEventIdxes gate events stop) pos time pin
      · rw [Frontier.advance_of_due hit,there pin]
        have := due.mp hit
        omega
      · rw [Frontier.advance_of_not_due hit,there pin]
        have := due.not.mp hit
        omega)
    ⟨start, 0, Nat.le_refl _, fun pin => by simp⟩ entry mem
  obtain ⟨now, turn, late, here⟩ := held
  obtain ⟨early, onward, there⟩ := positions_next loaded here (Frontier.nextTime?_of_mem mem).1
  exact ⟨early, Nat.le_trans late onward, there⟩

/-- The loop over the records of one time stops at the record itself. -/
theorem applySameTime_eq (events : Nat → Event) (now eventIdx : Nat) (first : 1 ≤ idx) (inside : idx + count ≤ stop)
    (same : ∀ k, idx ≤ k → k < idx + count → (events k).time = now)
    (after : idx + count < stop → (events (idx + count)).time ≠ now) (enough : stop - idx ≤ fuel) :
    applySameTime events stop now eventIdx fuel idx (events (idx - 1)).val =
      (events (idx + min count (eventIdx - idx) - 1)).val := by
  induction fuel generalizing idx count with
  | zero =>
    obtain rfl : count = 0 := by omega
    rw [Nat.zero_min]
    rfl
  | succ fuel ih =>
    simp only [applySameTime]
    cases count with
    | zero =>
      rw [if_neg fun h => after h.1 h.2,Nat.zero_min]
      rfl
    | succ count =>
      rw [if_pos ⟨by omega, same idx (Nat.le_refl _) (by omega)⟩]
      split
      case isTrue reached =>
        rw [Nat.sub_eq_zero_of_le reached,Nat.min_zero]
        rfl
      case isFalse before =>
        have next := @ih (idx + 1) count (by omega) (by omega)
          (fun k low high => same k (by omega) (by omega))
          (fun more => by
            have place : idx + 1 + count = idx + (count + 1) := by omega
            rw [place] at more ⊢
            exact after more) (by omega)
        rw [Nat.add_sub_cancel] at next
        rw [next]
        congr 2
        omega

/-- What the searches of a record at `now` find: the states before that time, and those after the records with a
smaller index. -/
theorem statesSeen_eq (loaded : Loaded gate events clock interval) (now eventIdx : Nat) (pin : Fin n) :
    statesSeen gate events now eventIdx pin = (stateAfter gate events now pin 0,
      stateAfter gate events now pin
        (min (sameTimeCount gate events now pin) (eventIdx - firstEventIdxes gate events now pin))) := by
  cases waveform : gate.pinWaveforms pin with
  | none => simp [statesSeen,stateAfter,statesAt,waveform]
  | some range =>
    have valid := loaded pin range waveform
    have nonempty := valid.nonempty
    have low : range.start ≤ getEventIdxByTime events range.start range.stop now false :=
      le_getEventIdxByTime valid.sorted (Nat.le_of_lt nonempty)
    have high : getEventIdxByTime events range.start range.stop now false ≤ range.stop :=
      getEventIdxByTime_le valid.sorted (Nat.le_of_lt nonempty)
    have here : firstEventIdxes gate events now pin =
        max (range.start + 1) (getEventIdxByTime events range.start range.stop now false) := by
      simp [firstEventIdxes,pinEventIdxes,waveform]
    have sameTime {k : Nat} (low : firstEventIdxes gate events now pin ≤ k) :
        k < firstEventIdxes gate events now pin + sameTimeCount gate events now pin ↔ k < range.stop ∧
          (events k).time = now :=
      sameTime_iff loaded waveform low
    have missed : ¬ range.start < getEventIdxByTime events range.start range.stop now false →
        now ≤ (events range.start).time := fun missed =>
      Nat.le_of_not_lt ((lt_getEventIdxByTime_iff valid.sorted (Nat.le_refl _) nonempty).not.mp missed)
    simp only [statesSeen,stateAfter,statesAt,waveform]
    generalize getEventIdxByTime events range.start range.stop now false = found at low high here missed ⊢
    generalize firstEventIdxes gate events now pin = first at here sameTime ⊢
    generalize sameTimeCount gate events now pin = count at sameTime ⊢
    have inside : first + count ≤ range.stop := by
      by_contra beyond
      have := (@sameTime (max first range.stop) (by omega)).mp (by omega)
      omega
    have same : ∀ k, first ≤ k → k < first + count → (events k).time = now := fun k lowk highk =>
      ((sameTime lowk).mp highk).2
    have after : first + count < range.stop → (events (first + count)).time ≠ now := fun more time =>
      absurd ((sameTime (by omega)).mpr ⟨more, time⟩) (Nat.lt_irrefl _)
    rcases Nat.eq_or_lt_of_le low with none | later
    · -- nothing in the range is before `now`: the first record is both the state before and passed over
      subst none
      obtain rfl : first = range.start + 1 := by omega
      obtain ⟨fuel, enough⟩ : ∃ m, range.stop - range.start = m + 1 := ⟨range.stop - range.start - 1, by omega⟩
      rw [if_neg (Nat.lt_irrefl _),enough]
      refine Prod.ext rfl ?_
      simp only [applySameTime]
      by_cases time : (events range.start).time = now
      · rw [if_pos ⟨nonempty, time⟩]
        by_cases reached : eventIdx ≤ range.start
        · rw [if_pos reached,Nat.sub_eq_zero_of_le (by omega : eventIdx ≤ range.start + 1),Nat.min_zero]
          rfl
        · rw [if_neg reached]
          exact applySameTime_eq events now eventIdx (by omega) inside same after (by omega)
      · rw [if_neg fun h => time h.2]
        have late := missed (Nat.lt_irrefl _)
        have none : count = 0 := by
          by_contra some
          have next := same (range.start + 1) (Nat.le_refl _) (by omega)
          have ordered := valid.sorted range.start (range.start + 1) (Nat.le_refl _) (by omega) (by omega)
          omega
        rw [none,Nat.zero_min]
        rfl
    · obtain rfl : first = found := by omega
      rw [if_pos later]
      refine Prod.ext rfl ?_
      exact applySameTime_eq events now eventIdx (by omega) inside same after (Nat.le_refl _)

/-- The states of a record of the fused kernel, by how many records of its time each pin has behind it. -/
theorem statesBefore_eq (loaded : Loaded gate events clock interval) (early : now < stop)
    (here : ∀ p, pos p = firstEventIdxes gate events now p + min turn (sameTimeCount gate events now p))
    (hit : turn < sameTimeCount gate events now pin) (other : Fin n) :
    statesBefore events pos (statesAt gate events pos)
        (triggeredPins events (pinEventIdxes gate events stop) pos now) pin other =
      stateAfter gate events now other (min (sameTimeCount gate events now other)
        (turn + if precedes (firstEventIdxes gate events now) other pin then 1 else 0)) := by
  have due := due_iff_round loaded early (here other)
  have own : pos pin = firstEventIdxes gate events now pin + turn := by rw [here pin]; omega
  have spot := here other
  have held : statesAt gate events pos other =
      stateAfter gate events now other (min turn (sameTimeCount gate events now other)) := by
    simp only [stateAfter,statesAt,spot]
  simp only [statesBefore,mem_triggeredPins,due,held]
  by_cases more : turn < sameTimeCount gate events now other
  · have order : precedes pos other pin ↔ precedes (firstEventIdxes gate events now) other pin := by
      unfold precedes
      rw [own,spot]
      omega
    simp only [more,true_and,order]
    split
    case isTrue =>
      obtain ⟨range, waveform⟩ : ∃ range, gate.pinWaveforms other = some range := by
        cases waveform : gate.pinWaveforms other with
        | none => rw [sameTimeCount_silent waveform] at more; omega
        | some range => exact ⟨range, rfl⟩
      simp only [stateAfter,statesAt,waveform,spot]
      congr 2
      omega
    case isFalse =>
      congr 1
      omega
  · rw [if_neg fun h => more h.1]
    congr 1
    split <;> omega

end States

end GTPower
