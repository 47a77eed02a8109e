import GTPower.LeakageTiling
import GTPower.PowerResult

/-! The leakage a window adds to a cycle when the clock period is no whole number of ticks. The loop over a window
begins at the cycle of its start in whole ticks, which may end before the start; such a cycle gets a share below 0.
Windows that are cut in two add what they added before but for the shares of the new start. -/
namespace GTPower

section Shares
variable (clock : Clock)

def clampToCycle (cycle time : Nat) : ℚ :=
  min (max (time * clock.vcdTimeScale) (cycle * clock.clkPeriod)) ((cycle + 1) * clock.clkPeriod)

/-- The share of a cycle that the loop visits although it ends before the start of the window. -/
def backlog (start cycle : Nat) : ℚ :=
  if clock.clkedWaveformIdx start ≤ cycle ∧ (cycle + 1) * clock.clkPeriod ≤ start * clock.vcdTimeScale then
    ((cycle + 1) * clock.clkPeriod - start * clock.vcdTimeScale) / clock.clkPeriod
  else 0

variable {clock}

theorem backlog_eq_zero (inside : start * clock.vcdTimeScale < (clock.clkedWaveformIdx start + 1) * clock.clkPeriod)
    (cycle : Nat) : backlog clock start cycle = 0 := by
  refine if_neg fun ⟨visited, ended⟩ => ?_
  have later : ((clock.clkedWaveformIdx start : ℚ) + 1) * clock.clkPeriod ≤ (cycle + 1) * clock.clkPeriod :=
    mul_le_mul_of_nonneg_right (by exact_mod_cast Nat.succ_le_succ visited) (le_of_lt clock.clkPeriod_pos)
  linarith

theorem calculatePerCycleLeakagePower_shares (window : Window) (forward : window.start ≤ window.stop) (cycle : Nat) :
    calculatePerCycleLeakagePower clock window cycle =
      window.value * (clampToCycle clock cycle window.stop - clampToCycle clock cycle window.start) / clock.clkPeriod +
        window.value * backlog clock window.start cycle := by
  have tick := clock.vcdTimeScale_pos
  have period := clock.clkPeriod_pos
  have order : (window.start : ℚ) * clock.vcdTimeScale ≤ window.stop * clock.vcdTimeScale :=
    mul_le_mul_of_nonneg_right (by exact_mod_cast forward) (le_of_lt tick)
  have width : (cycle : ℚ) * clock.clkPeriod ≤ (cycle + 1) * clock.clkPeriod := by linarith
  rw [calculatePerCycleLeakagePower_eq]
  unfold cycleLeakage clampToCycle backlog
  by_cases visited : clock.clkedWaveformIdx window.start ≤ cycle
  · by_cases begun : (cycle : ℚ) * clock.clkPeriod ≤ window.stop * clock.vcdTimeScale
    · rw [if_pos ⟨visited, begun⟩]
      by_cases ended : ((cycle : ℚ) + 1) * clock.clkPeriod ≤ window.start * clock.vcdTimeScale
      · rw [if_pos ⟨visited, ended⟩,max_eq_right (le_trans width ended),min_eq_left (le_trans ended order),
          max_eq_left (le_trans (le_trans width ended) order),min_eq_right (le_trans ended order),
          max_eq_left (le_trans width ended),min_eq_right ended]
        ring
      · have more := le_of_not_ge ended
        rw [if_neg fun h => ended h.2,max_eq_left begun,min_comm,max_comm,min_eq_left (max_le more width)]
        ring
    · have before := le_of_not_ge begun
      have early : (window.start : ℚ) * clock.vcdTimeScale ≤ cycle * clock.clkPeriod := le_trans order before
      have late : ¬ ((cycle : ℚ) + 1) * clock.clkPeriod ≤ window.start * clock.vcdTimeScale := fun ended => by linarith
      rw [if_neg fun h => begun h.2,if_neg fun h => late h.2,max_eq_right before,max_eq_right early]
      ring
  · -- in whole ticks the window begins after the cycle, and so it does by time
    have passed : (cycle + 1) * clock.vcdTimeUnitPerCycle ≤ window.start :=
      clock.le_clkedWaveformIdx_iff.mp (Nat.lt_of_not_le visited)
    have rounded : clock.clkPeriod ≤ clock.vcdTimeUnitPerCycle * clock.vcdTimeScale := by
      rw [← div_le_iff₀ tick]
      have ceil : clock.clkPeriod / clock.vcdTimeScale ≤ (clock.clkPeriod / clock.vcdTimeScale).ceil := Rat.le_ceil
      have count : (0 : Int) ≤ (clock.clkPeriod / clock.vcdTimeScale).ceil := by
        have positive := clock.vcdTimeUnitPerCycle_pos
        simp only [Clock.vcdTimeUnitPerCycle] at positive
        omega
      refine le_trans ceil (le_of_eq ?_)
      simp only [Clock.vcdTimeUnitPerCycle]
      exact_mod_cast (Int.toNat_of_nonneg count).symm
    have ended : ((cycle : ℚ) + 1) * clock.clkPeriod ≤ window.start * clock.vcdTimeScale := by
      calc ((cycle : ℚ) + 1) * clock.clkPeriod
          ≤ (cycle + 1) * (clock.vcdTimeUnitPerCycle * clock.vcdTimeScale) :=
            mul_le_mul_of_nonneg_left rounded (by positivity)
        _ = ((cycle + 1 : Nat) * clock.vcdTimeUnitPerCycle : Nat) * clock.vcdTimeScale := by push_cast; ring
        _ ≤ window.start * clock.vcdTimeScale :=
            mul_le_mul_of_nonneg_right (by exact_mod_cast passed) (le_of_lt tick)
    rw [if_neg fun h => visited h.1,if_neg fun h => visited h.1,max_eq_left (le_trans (le_trans width ended) order),
      min_eq_right (le_trans ended order),max_eq_left (le_trans width ended),min_eq_right ended]
    ring

def cycleShares (clock : Clock) (cycle : Nat) (windows : List Window) : ℚ :=
  (windows.map fun window =>
    window.value * (clampToCycle clock cycle window.stop - clampToCycle clock cycle window.start) /
    clock.clkPeriod + window.value * backlog clock window.start cycle).sum

theorem leakagePowers_shares (chain : Timeline.Chain first windows last) (cycle : Nat) :
    leakagePowers clock windows .leakage (some cycle) = cycleShares clock cycle windows := by
  rw [leakagePowers_entry]
  refine congrArg List.sum (List.map_congr_left fun window mem => ?_)
  exact calculatePerCycleLeakagePower_shares window (chain.inside mem).2.1 cycle

theorem cycleShares_append (clock : Clock) (cycle : Nat) (front back : List Window) :
    cycleShares clock cycle (front ++ back) = cycleShares clock cycle front + cycleShares clock cycle back := by
  rw [cycleShares,cycleShares,cycleShares,List.map_append,List.sum_append]

theorem cycleShares_cut (clock : Clock) (cycle : Nat) (front back : List Window) (start middle stop : Nat) (value : ℚ) :
    cycleShares clock cycle (front ++ ⟨start, middle, value⟩ :: ⟨middle, stop, value⟩ :: back) =
      cycleShares clock cycle (front ++ ⟨start, stop, value⟩ :: back) + value * backlog clock middle cycle := by
  rw [cycleShares_append,cycleShares_append]
  simp only [cycleShares,List.map_cons,List.sum_cons]
  ring

end Shares

section Cuts
variable {gate : Gate n} {events : Nat → Event} {clock : Clock} {interval : Periods}

/-- Leakage of the states before the records of a time. -/
def leakageBefore (gate : Gate n) (events : Nat → Event) (time : Nat) : ℚ :=
  gate.findLeakageVal (statesAt gate events (firstEventIdxes gate events time))

theorem windowsFrom_append (start : Nat) (rounds rounds' : List (Nat × (Fin n → Nat))) :
    windowsFrom gate events start (rounds ++ rounds') =
      windowsFrom gate events start rounds ++ windowsFrom gate events (lastTime start rounds) rounds' := by
  induction rounds generalizing start with
  | nil => rfl
  | cons entry rest ih =>
    rw [List.cons_append,windowsFrom,windowsFrom,ih]
    rfl

theorem lastTime_append (start : Nat) (rounds rounds' : List (Nat × (Fin n → Nat))) :
    lastTime start (rounds ++ rounds') = lastTime (lastTime start rounds) rounds' := by
  induction rounds generalizing start with
  | nil => rfl
  | cons entry rest ih => exact ih entry.1

theorem finalStates_eq (loaded : Loaded gate events clock interval) (order : start ≤ stop) :
    gate.findLeakageVal (finalStates gate events start stop) = leakageBefore gate events stop := by
  rw [finalStates,leakageBefore,firstEventIdxes_later loaded order]

theorem windowsBetween_cut (loaded : Loaded gate events clock interval) (low : start ≤ middle) (high : middle ≤ stop)
    (inside : middle ≤ clock.maxTime) : ∃ front back first last,
      windowsBetween gate events clock start stop = front ++ ⟨first, last, leakageBefore gate events middle⟩ :: back ∧
      windowsBetween gate events clock start middle ++ windowsBetween gate events clock middle stop =
        front ++ ⟨first, middle, leakageBefore gate events middle⟩ ::
          ⟨middle, last, leakageBefore gate events middle⟩ :: back := by
  simp only [windowsBetween,finalStates_eq loaded low,finalStates_eq loaded high,
    finalStates_eq loaded (Nat.le_trans low high),roundsBetween_append loaded low
      high,windowsFrom_append,lastTime_append,
    Nat.min_eq_left inside,List.append_assoc,List.singleton_append]
  refine ⟨windowsFrom gate events start (roundsBetween gate events start middle), ?_⟩
  cases rounds : roundsBetween gate events middle stop with
  | nil =>
    have still : firstEventIdxes gate events stop = firstEventIdxes gate events middle := by
      have none : Frontier.nextTime? (List.finRange n) (recordTime events) (pinEventIdxes gate events stop)
          (firstEventIdxes gate events middle) = none := by
        cases next : Frontier.nextTime? (List.finRange n) (recordTime events) (pinEventIdxes gate events stop)
            (firstEventIdxes gate events middle) with
        | none => rfl
        | some now =>
          rw [roundsBetween,Frontier.schedule_of_some next] at rounds
          cases rounds
      rw [← firstEventIdxes_later loaded high]
      exact Frontier.max_stop_of_done List.mem_finRange none
    have same : leakageBefore gate events stop = leakageBefore gate events middle := by
      rw [leakageBefore,leakageBefore,still]
    exact ⟨[], _, _, by rw [same]; rfl, by rw [same]; rfl⟩
  | cons entry rest =>
    obtain ⟨now, pos⟩ := entry
    have here : pos = firstEventIdxes gate events middle := by
      cases next : Frontier.nextTime? (List.finRange n) (recordTime events) (pinEventIdxes gate events stop)
          (firstEventIdxes gate events middle) with
      | none =>
        rw [roundsBetween,Frontier.schedule_of_none next] at rounds
        cases rounds
      | some time =>
        rw [roundsBetween,Frontier.schedule_of_some next] at rounds
        exact (Prod.mk.inj (List.cons.inj rounds).1).2.symm
    subst here
    exact ⟨_, _, _, rfl, rfl⟩

/-- What the starts of threads behind the first cycle add to a cycle. -/
def startShares (gate : Gate n) (events : Nat → Event) (clock : Clock) (bounds : Nat → Nat) (threads cycle : Nat) : ℚ :=
  ((List.range threads).map fun thread => if bounds 0 < bounds thread ∧ bounds thread < bounds (thread + 1) then
    leakageBefore gate events (bounds thread * clock.vcdTimeUnitPerCycle) *
      backlog clock (bounds thread * clock.vcdTimeUnitPerCycle) cycle else 0).sum

theorem startShares_succ (gate : Gate n) (events : Nat → Event) (clock : Clock) (bounds : Nat → Nat)
    (threads cycle : Nat) : startShares gate events clock bounds (threads + 1) cycle =
      startShares gate events clock bounds threads cycle +
        if bounds 0 < bounds threads ∧ bounds threads < bounds (threads + 1) then
          leakageBefore gate events (bounds threads * clock.vcdTimeUnitPerCycle) *
            backlog clock (bounds threads * clock.vcdTimeUnitPerCycle) cycle else 0 := by
  rw [startShares,List.range_succ,List.map_append,List.sum_append]
  simp [startShares]

theorem cycleShares_noCycle (gate : Gate n) (events : Nat → Event) (clock : Clock) (interval : Periods)
    (cycle bound : Nat) : cycleShares clock cycle (threadWindows gate events clock interval ⟨bound, bound⟩) = 0 := by
  simp [threadWindows,cycleShares]

/-- Threads on consecutive boundaries add what one thread adds and the shares of their starts. -/
theorem threadWindows_shares (loaded : Loaded gate events clock interval) (bounds : Nat → Nat) (threads cycle : Nat)
    (order : ∀ t < threads, bounds t ≤ bounds (t + 1))
    (inner : ∀ t < threads, bounds t < bounds (t + 1) → bounds t < interval.stop)
    (begun : ∀ t < threads, bounds t < bounds (t + 1) → bounds t * clock.vcdTimeUnitPerCycle ≤ clock.maxTime) :
    bounds 0 ≤ bounds threads ∧
    cycleShares clock cycle ((List.range threads).flatMap fun t =>
        threadWindows gate events clock interval ⟨bounds t, bounds (t + 1)⟩) =
      cycleShares clock cycle (threadWindows gate events clock interval ⟨bounds 0, bounds threads⟩) +
        startShares gate events clock bounds threads cycle := by
  induction threads with
  | zero => exact ⟨Nat.le_refl _, by simp [cycleShares,threadWindows,startShares]⟩
  | succ threads ih =>
    obtain ⟨lower, shares⟩ := ih (fun t less => order t (by omega)) (fun t less => inner t (by omega))
      (fun t less => begun t (by omega))
    have last := order threads (by omega)
    refine ⟨Nat.le_trans lower last, ?_⟩
    rw [List.range_succ,List.flatMap_append,List.flatMap_singleton,cycleShares_append,shares,startShares_succ]
    rcases Nat.eq_or_lt_of_le last with stay | moves
    · rw [if_neg fun h => by omega,← stay,cycleShares_noCycle]
      ring
    rcases Nat.eq_or_lt_of_le lower with same | before
    · rw [if_neg fun h => by omega,← same,cycleShares_noCycle]
      ring
    · have early := inner threads (by omega) moves
      have started := begun threads (by omega) moves
      have unit := clock.vcdTimeUnitPerCycle_pos
      have ends : (⟨bounds 0, bounds threads⟩ : Periods).endTime interval clock = bounds threads *
        clock.vcdTimeUnitPerCycle := by
        simp only [Periods.endTime,Nat.ne_of_lt early,if_false,Nat.add_zero]
      obtain ⟨front, back, first, final, whole, cut⟩ := windowsBetween_cut loaded
        (Nat.mul_le_mul_right clock.vcdTimeUnitPerCycle (Nat.le_of_lt before))
        (Nat.le_trans (Nat.mul_le_mul_right clock.vcdTimeUnitPerCycle last)
          (Nat.le_add_right _ (if bounds (threads + 1) = interval.stop then 1 else 0))) started
      have single : threadWindows gate events clock interval ⟨bounds 0, bounds (threads + 1)⟩ =
          front ++ ⟨first, final, leakageBefore gate events (bounds threads * clock.vcdTimeUnitPerCycle)⟩ :: back := by
        rw [threadWindows,if_neg (Nat.ne_of_lt (Nat.lt_trans before moves))]
        exact whole
      have joined : threadWindows gate events clock interval ⟨bounds 0, bounds threads⟩ ++
          threadWindows gate events clock interval ⟨bounds threads, bounds (threads + 1)⟩ =
            front ++ ⟨first, bounds threads * clock.vcdTimeUnitPerCycle,
              leakageBefore gate events (bounds threads * clock.vcdTimeUnitPerCycle)⟩ ::
              ⟨bounds threads * clock.vcdTimeUnitPerCycle, final,
                leakageBefore gate events (bounds threads * clock.vcdTimeUnitPerCycle)⟩ :: back := by
        rw [threadWindows,threadWindows,if_neg (Nat.ne_of_lt before),if_neg (Nat.ne_of_lt moves),ends]
        exact cut
      have sum := cycleShares_cut clock cycle front back first (bounds threads * clock.vcdTimeUnitPerCycle) final
        (leakageBefore gate events (bounds threads * clock.vcdTimeUnitPerCycle))
      rw [← single,← joined,cycleShares_append] at sum
      rw [if_pos ⟨before, moves⟩]
      linarith

end Cuts
end GTPower
