import GTPower.ThreadRounds

/-! Leakage windows of the threads on the tick axis. A window holds the leakage of the pin states of
each of its ticks, and the windows of consecutive threads follow one another. -/
namespace GTPower

section States
variable (gate : Gate n) (events : Nat → Event)

/-- Pin states at a tick: the value of the last record at or before it, or of the first record. -/
def tickStates (tick : Nat) (pin : Fin n) : Int :=
  match gate.pinWaveforms pin with
  | none => gate.getPinDefaultState pin
  | some range =>
    (events (max range.start (getEventIdxByTime events range.start range.stop tick true - 1))).val

def tickLeakage (tick : Nat) : ℚ := gate.findLeakageVal (tickStates gate events tick)

variable {gate events}

theorem getEventIdxByTime_containsEqual (start stop tick : Nat) :
    getEventIdxByTime events start stop tick true = getEventIdxByTime events start stop (tick + 1) false := by
  have same : (fun mid => (events mid).time < tick || true && (events mid).time ≤ tick) =
      fun mid => (events mid).time < tick + 1 || false && (events mid).time ≤ tick + 1 := by
    funext mid
    rw [Bool.eq_iff_iff]
    simp only [Bool.true_and,Bool.false_and,Bool.or_false,Bool.or_eq_true,decide_eq_true_eq]
    omega
  rw [getEventIdxByTime,getEventIdxByTime,same]

theorem tickStates_eq (tick : Nat) :
    tickStates gate events tick = statesAt gate events (firstEventIdxes gate events (tick + 1)) := by
  funext pin
  unfold tickStates statesAt firstEventIdxes pinEventIdxes
  cases gate.pinWaveforms pin with
  | none => rfl
  | some range =>
    simp only [getEventIdxByTime_containsEqual]
    congr 2
    omega

end States

section Windows
variable {gate : Gate n} {events : Nat → Event} {clock : Clock} {interval : Periods}

/-- Positions with every record behind them at or before `tick` and every record ahead after it give
the pin states of the tick. -/
theorem statesAt_eq_tickStates (loaded : Loaded gate events clock interval) (early : start ≤ tick + 1)
    (low : ∀ pin, firstEventIdxes gate events start pin ≤ pos pin)
    (high : ∀ pin, pos pin ≤ max (firstEventIdxes gate events start pin) (pinEventIdxes gate events stop pin))
    (passed : ∀ pin k, firstEventIdxes gate events start pin ≤ k → k < pos pin → (events k).time ≤ tick)
    (ahead : ∀ pin k, pos pin ≤ k → k < pinEventIdxes gate events stop pin → tick < (events k).time)
    (before : tick < stop) : statesAt gate events pos = tickStates gate events tick := by
  rw [tickStates_eq]
  congr 1
  exact positions_eq loaded early before low high
    (fun pin k lowk less => Nat.lt_succ_of_le (passed pin k lowk less)) ahead

/-- Where the loop of a thread stands between two rounds: the records behind the frontier are not later
than `prevTime`, those ahead not earlier. -/
structure Standing (gate : Gate n) (events : Nat → Event) (start stop : Nat) (pos : Fin n → Nat) (prevTime : Nat) :
    Prop where
  low : ∀ pin, firstEventIdxes gate events start pin ≤ pos pin
  high : ∀ pin, pos pin ≤ max (firstEventIdxes gate events start pin) (pinEventIdxes gate events stop pin)
  passed : ∀ pin k, firstEventIdxes gate events start pin ≤ k → k < pos pin → (events k).time ≤ prevTime
  ahead : ∀ pin k, pos pin ≤ k → k < pinEventIdxes gate events stop pin → prevTime ≤ (events k).time

theorem standing_start (loaded : Loaded gate events clock interval) (start stop : Nat) :
    Standing gate events start stop (firstEventIdxes gate events start) start where
  low _ := Nat.le_refl _
  high _ := Nat.le_max_left _ _
  passed _ _ low high := absurd high (Nat.not_lt.mpr low)
  ahead _ _ low high := by
    obtain ⟨-, -, -, -, late, -⟩ := pending_record loaded low high
    exact late

theorem Standing.advance (standing : Standing gate events start stop pos prevTime)
    (loaded : Loaded gate events clock interval)
    (next : Frontier.nextTime? (List.finRange n) (recordTime events) (pinEventIdxes gate events stop) pos = some now) :
    prevTime ≤ now ∧ Standing gate events start stop
      (Frontier.advance (recordTime events) (pinEventIdxes gate events stop) pos now) now := by
  obtain ⟨⟨pin, -, hit⟩, -⟩ := Frontier.nextTime?_eq_some_iff.mp next
  obtain ⟨more, time⟩ := Frontier.due_iff.mp hit
  have onward : prevTime ≤ now := time ▸ standing.ahead pin _ (Nat.le_refl _) more
  have sorted := (sorted_pending loaded start stop).mono standing.low (fun _ => Nat.le_refl _)
  refine ⟨onward, fun pin => Nat.le_trans (standing.low pin) Frontier.le_advance, fun pin => ?_,
    fun pin k low high => ?_, fun pin k low high => ?_⟩
  · have := standing.high pin
    by_cases hit : Frontier.due (recordTime events) (pinEventIdxes gate events stop) pos now pin
    · have := (Frontier.due_iff.mp hit).1
      rw [Frontier.advance_of_due hit]; omega
    · rw [Frontier.advance_of_not_due hit]; omega
  · by_cases past : k < pos pin
    · exact Nat.le_trans (standing.passed pin k low past) onward
    · by_cases hit : Frontier.due (recordTime events) (pinEventIdxes gate events stop) pos now pin
      · rw [Frontier.advance_of_due hit] at high
        have here : k = pos pin := by omega
        have same := (Frontier.due_iff.mp hit).2
        rw [here]
        exact Nat.le_of_eq same
      · rw [Frontier.advance_of_not_due hit] at high
        omega
  · exact Frontier.next_le List.mem_finRange sorted next (Nat.le_trans Frontier.le_advance low) high

/-- The windows of the rounds follow one another and hold the leakage of their ticks. -/
theorem windowsFrom_spec (loaded : Loaded gate events clock interval) (pos : Fin n → Nat) (prevTime : Nat)
    (early : start ≤ prevTime) (standing : Standing gate events start stop pos prevTime)
    (bounded : ∀ pin k, pos pin ≤ k → k < pinEventIdxes gate events stop pin → (events k).time ≤ bound)
    (reached : prevTime ≤ bound) :
    let rounds := Frontier.schedule (List.finRange n) (recordTime events) (pinEventIdxes gate events stop) pos
    Timeline.Chain prevTime (windowsFrom gate events prevTime rounds) (lastTime prevTime rounds) ∧
    Timeline.Traces (tickLeakage gate events) (windowsFrom gate events prevTime rounds) ∧
    lastTime prevTime rounds ≤ bound ∧
    Standing gate events start stop (fun pin => max (pos pin) (pinEventIdxes gate events stop pin))
      (lastTime prevTime rounds) := by
  induction pos using Frontier.schedule_induction (List.finRange n) (recordTime events)
    (pinEventIdxes gate events stop) generalizing prevTime with
  | done pos next =>
    rw [Frontier.schedule_of_none next,Frontier.max_stop_of_done List.mem_finRange next]
    refine ⟨.nil, fun span mem => ?_, reached, standing⟩
    cases mem
  | round pos now next ih =>
    obtain ⟨⟨pin, -, hit⟩, -⟩ := Frontier.nextTime?_eq_some_iff.mp next
    obtain ⟨more, time⟩ := Frontier.due_iff.mp hit
    have within : now ≤ bound := time ▸ bounded pin _ (Nat.le_refl _) more
    have ends : now < stop := by
      obtain ⟨-, -, -, -, -, less⟩ := pending_record loaded (standing.low pin) more
      exact time ▸ less
    obtain ⟨onward, advanced⟩ := standing.advance loaded next
    obtain ⟨chain, traces, least, final⟩ := ih now (Nat.le_trans early onward) advanced
      (fun pin k low high => bounded pin k (Nat.le_trans Frontier.le_advance low) high) within
    rw [Frontier.max_advance_stop] at final
    rw [Frontier.schedule_of_some next]
    refine ⟨.cons ⟨prevTime, now, _⟩ onward chain, ?_, least, final⟩
    intro span mem
    rcases List.mem_cons.mp mem with rfl | later
    · intro tick low high
      replace low : prevTime ≤ tick := low
      have sorted := (sorted_pending loaded start stop).mono standing.low (fun _ => Nat.le_refl _)
      rw [tickLeakage,← statesAt_eq_tickStates loaded (by omega) standing.low standing.high
        (fun pin k lowk less => Nat.le_trans (standing.passed pin k lowk less) low)
        (fun pin k lowk less => Nat.lt_of_lt_of_le high (Frontier.next_le List.mem_finRange sorted next lowk less))
        (Nat.lt_trans high ends)]
    · exact traces span later

/-- The windows of a span of time that starts inside the dump follow one another to its end. -/
theorem windowsBetween_spec (loaded : Loaded gate events clock interval) (order : start ≤ min stop clock.maxTime) :
    Timeline.Chain start (windowsBetween gate events clock start stop) (min stop clock.maxTime) ∧
    Timeline.Traces (tickLeakage gate events) (windowsBetween gate events clock start stop) := by
  have bounded : ∀ pin k, firstEventIdxes gate events start pin ≤ k → k < pinEventIdxes gate events stop pin →
      (events k).time ≤ min stop clock.maxTime := by
    intro pin k low high
    obtain ⟨range, waveform, first, inside, -, less⟩ := pending_record loaded low high
    exact Nat.le_min.mpr ⟨Nat.le_of_lt less, (loaded pin range waveform).bounded k (Nat.le_of_lt first) inside⟩
  obtain ⟨chain, traces, least, final⟩ := windowsFrom_spec loaded _ start (Nat.le_refl _)
    (standing_start loaded start stop) bounded order
  refine ⟨chain.append (.cons ⟨_, _, _⟩ least .nil), Timeline.traces_append.mpr ⟨traces, ?_⟩⟩
  intro span mem tick low high
  obtain rfl := List.mem_singleton.mp mem
  have first : start ≤ tick := Nat.le_trans chain.le low
  rw [tickLeakage,← statesAt_eq_tickStates loaded (by omega) final.low final.high
    (fun pin k lowk less => Nat.le_trans (final.passed pin k lowk less) low)
    (fun pin k lowk less => absurd less (by omega)) (Nat.lt_of_lt_of_le high (Nat.min_le_left _ _))]
  rfl

/-- A thread that starts after the dump has a single window, which runs backward. -/
theorem windowsBetween_after (loaded : Loaded gate events clock interval) (late : clock.maxTime < start) :
    windowsBetween gate events clock start stop =
      [⟨start, min stop clock.maxTime, gate.findLeakageVal (finalStates gate events start stop)⟩] := by
  have empty : roundsBetween gate events start stop = [] := by
    refine Frontier.schedule_of_none (Frontier.nextTime?_eq_none_iff.mpr fun pin _ => ?_)
    by_contra pending
    obtain ⟨range, waveform, first, inside, after, -⟩ :=
      pending_record loaded (Nat.le_refl _) (Nat.lt_of_not_le pending)
    have := (loaded pin range waveform).bounded _ (Nat.le_of_lt first) inside
    omega
  simp [windowsBetween,empty,windowsFrom,lastTime]

end Windows
end GTPower
