import GTPower.CycleAccting

/-! Which pairs of edges the loops over two clocks look at, and when the closest pairs are among them. -/
namespace GTPower.CycleAccting

section Pairs
variable (src tgt : ClockEdge)

/-- The order of the loops. -/
def Before (i' j' i j : ℤ) : Prop := j' < j ∨ j' = j ∧ i' < i

/-- Source cycles go from the first one to the end of the target cycle. With the first target cycle, they go on to the
first source edge that is not before the target edge. -/
def InRow (i j : ℤ) : Prop :=
  src.firstCycle ≤ i ∧ tgt.firstCycle ≤ j ∧
    (src.cycleStart i ≤ tgt.cycleStart j + tgt.period ∨
      j = tgt.firstCycle ∧ (i = src.firstCycle ∨ src.cycleTime (i - 1) < tgt.cycleTime j))

/-- Cycles that start together, after a pair with the target after the source and one with the source at or after the
target. -/
structure Synchronous (i j : ℤ) : Prop where
  src_first : src.firstCycle ≤ i
  tgt_first : tgt.firstCycle ≤ j
  together : src.cycleStart i = tgt.cycleStart j
  tgtPastSrc : ∃ i' j', (InRow src tgt i' j' ∧ Before i' j' i j) ∧ src.cycleTime i' < tgt.cycleTime j'
  srcPastTgt : ∃ i' j', (InRow src tgt i' j' ∧ Before i' j' i j) ∧ tgt.cycleTime j' ≤ src.cycleTime i'

/-- Pairs of cycles before the first that are synchronous. -/
def Scanned (i j : ℤ) : Prop := InRow src tgt i j ∧ ∀ i' j', Synchronous src tgt i' j' → Before i j i' j'

/-- The distances of pairs with the target after the source. -/
def setupDelays (among : ℤ → ℤ → Prop) : Set ℚ :=
  {delay | ∃ i j, among i j ∧ src.cycleTime i < tgt.cycleTime j ∧ delay = tgt.cycleTime j - src.cycleTime i}

/-- The distances of pairs with the source at or after the target. -/
def holdDelays (among : ℤ → ℤ → Prop) : Set ℚ :=
  {delay | ∃ i j, among i j ∧ tgt.cycleTime j ≤ src.cycleTime i ∧ delay = src.cycleTime i - tgt.cycleTime j}

/-- The closest of all pairs is scanned, if its distance is below the initial value. -/
def ClosestScanned (delays : (ℤ → ℤ → Prop) → Set ℚ) : Prop :=
  ∃ delay, IsLeast (delays fun _ _ => True) delay ∧
    (delay = minInitValue ∨ delay < minInitValue ∧ delay ∈ delays (Scanned src tgt))

/-- The delays for setup and hold are those of the closest pairs. -/
def Separated (s : State) : Prop :=
  IsLeast (setupDelays src tgt fun _ _ => True) (s.delay .setup) ∧
    IsLeast (holdDelays src tgt fun _ _ => True) (s.delay .hold)

/-- What is known after the pairs `among` have been looked at. -/
structure Summary (among : ℤ → ℤ → Prop) (s : State) : Prop where
  tgtPastSrc : s.tgtPastSrc = true ↔ ∃ i j, among i j ∧ src.cycleTime i < tgt.cycleTime j
  srcPastTgt : s.srcPastTgt = true ↔ ∃ i j, among i j ∧ tgt.cycleTime j ≤ src.cycleTime i
  setup : LeastSeen minInitValue (setupDelays src tgt among) (s.delay .setup)
  hold : LeastSeen minInitValue (holdDelays src tgt among) (s.delay .hold)

/-- The loops at a pair, with every pair before it looked at. -/
structure Arrived (i j : ℤ) (s : State) : Prop where
  src_first : src.firstCycle ≤ i
  tgt_first : tgt.firstCycle ≤ j
  row : ∀ i', src.firstCycle ≤ i' → i' < i → InRow src tgt i' j
  summary : Summary src tgt (fun i' j' => InRow src tgt i' j' ∧ Before i' j' i j) s
  unsynced : ∀ i' j', Synchronous src tgt i' j' → ¬Before i' j' i j
  past : tgt.firstCycle < j → s.srcPastTgt = true
  going : s.maxCyclesExceeded = false

end Pairs

variable {src tgt : ClockEdge} {i j : ℤ} {s s' : State}

section Steps

/-- What the loops and the delays for setup and hold depend on. -/
structure Seen where
  tgtPastSrc : Bool
  srcPastTgt : Bool
  setup : ℚ
  hold : ℚ
  maxCyclesExceeded : Bool

def State.seen (s : State) : Seen := ⟨s.tgtPastSrc, s.srcPastTgt, s.delay .setup, s.delay .hold, s.maxCyclesExceeded⟩

theorem delay_setAccting (s : State) (role role' : TimingRole) (acct : Acct) :
    (s.setAccting role acct).delay role' = if role' = role then acct.delay else s.delay role' := by
  simp only [State.delay,State.setAccting,Function.update_apply]
  split <;> rfl

theorem seen_setAccting {role : TimingRole} (setup : role ≠ .setup) (hold : role ≠ .hold) (acct : Acct) :
    (s.setAccting role acct).seen = s.seen := by
  simp only [State.seen,delay_setAccting,if_neg setup.symm,if_neg hold.symm]
  rfl

theorem seen_setSetupAccting (s : State) (acct : Acct) :
    (s.setSetupAccting acct).seen = { s.seen with setup := acct.delay } := by
  unfold State.setSetupAccting
  rw [seen_setAccting (by decide) (by decide),seen_setAccting (by decide) (by decide),
    seen_setAccting (by decide) (by decide)]
  simp only [State.seen,delay_setAccting]
  rfl

theorem seen_setHoldAccting (s : State) (acct : Acct) :
    (s.setHoldAccting acct).seen = { s.seen with hold := acct.delay } := by
  unfold State.setHoldAccting
  rw [seen_setAccting (by decide) (by decide),seen_setAccting (by decide) (by decide),
    seen_setAccting (by decide) (by decide)]
  simp only [State.seen,delay_setAccting]
  rfl

theorem seen_checkSetup (src tgt : ClockEdge) (i j : ℤ) (s : State) : (checkSetup src tgt i j s).seen =
    if src.cycleTime i < tgt.cycleTime j then
      { s.seen with
        tgtPastSrc := true
        setup := if tgt.cycleTime j - src.cycleTime i < s.delay .setup then tgt.cycleTime j - src.cycleTime i
          else s.delay .setup }
    else s.seen := by
  unfold checkSetup
  by_cases after : src.cycleTime i < tgt.cycleTime j
  · rw [if_pos after,if_pos after]
    by_cases less : tgt.cycleTime j - src.cycleTime i < s.delay .setup
    · rw [if_pos less]
      exact (congrArg State.seen (if_pos less)).trans (seen_setSetupAccting _ _)
    · rw [if_neg less]
      exact congrArg State.seen (if_neg less)
  · rw [if_neg after,if_neg after]

theorem seen_checkHold (src tgt : ClockEdge) (i j : ℤ) (s : State) : (checkHold src tgt i j s).seen =
    if tgt.cycleTime j ≤ src.cycleTime i then
      { s.seen with
        srcPastTgt := true
        hold := if src.cycleTime i - tgt.cycleTime j < s.delay .hold then src.cycleTime i - tgt.cycleTime j
          else s.delay .hold }
    else s.seen := by
  unfold checkHold
  by_cases past : tgt.cycleTime j ≤ src.cycleTime i
  · rw [if_pos past,if_pos past]
    by_cases less : src.cycleTime i - tgt.cycleTime j < s.delay .hold
    · rw [if_pos less]
      exact (congrArg State.seen (if_pos less)).trans (seen_setHoldAccting _ _)
    · rw [if_neg less]
      exact congrArg State.seen (if_neg less)
  · rw [if_neg past,if_neg past]

theorem seen_ite {c : Prop} [Decidable c] {s₁ s₂ : State} {seen : Seen} (first : s₁.seen = seen)
    (second : s₂.seen = seen) :
    (if c then s₁ else s₂).seen = seen := by
  split
  · exact first
  · exact second

theorem seen_checkDataCheck (src tgt : ClockEdge) (i j : ℤ) (s : State) :
    (checkDataCheck src tgt i j s).seen = s.seen := by
  apply seen_ite
  · apply seen_ite
    · exact (seen_setAccting (by decide) (by decide) _).trans (seen_setAccting (by decide) (by decide) _)
    · rfl
  · rfl

theorem seen_checkLatchSetup (src tgt : ClockEdge) (i j : ℤ) (s : State) :
    (checkLatchSetup src tgt i j s).seen = s.seen := by
  apply seen_ite
  · apply seen_ite
    · apply seen_ite
      · exact seen_setAccting (by decide) (by decide) _
      · exact seen_setAccting (by decide) (by decide) _
    · rfl
  · rfl

theorem seen_checkGatedClockHold (src tgt : ClockEdge) (i j : ℤ) (s : State) :
    (checkGatedClockHold src tgt i j s).seen = s.seen := by
  apply seen_ite
  · apply seen_ite
    · exact seen_setAccting (by decide) (by decide) _
    · rfl
  · rfl

theorem seen_checkPair (src tgt : ClockEdge) (i j : ℤ) (s : State) : (checkPair src tgt i j s).seen =
    if src.cycleTime i < tgt.cycleTime j then
      { s.seen with
        tgtPastSrc := true
        setup := if tgt.cycleTime j - src.cycleTime i < s.delay .setup then tgt.cycleTime j - src.cycleTime i
          else s.delay .setup }
    else
      { s.seen with
        srcPastTgt := true
        hold := if src.cycleTime i - tgt.cycleTime j < s.delay .hold then src.cycleTime i - tgt.cycleTime j
          else s.delay .hold } := by
  have inner : (checkLatchSetup src tgt i j (checkDataCheck src tgt i j (checkSetup src tgt i j s))).seen =
    (checkSetup src tgt i j s).seen := by
    rw [seen_checkLatchSetup,seen_checkDataCheck]
  have delay : (checkLatchSetup src tgt i j (checkDataCheck src tgt i j (checkSetup src tgt i j s))).delay .hold =
    s.delay .hold := by
    have eq := congrArg Seen.hold (inner.trans (seen_checkSetup src tgt i j s))
    refine Eq.trans eq ?_
    split <;> rfl
  unfold checkPair
  rw [seen_checkGatedClockHold,seen_checkHold,delay,inner,seen_checkSetup]
  by_cases after : src.cycleTime i < tgt.cycleTime j
  · rw [if_pos after,if_pos after,if_neg (not_le.2 after)]
  · rw [if_neg after,if_neg after,if_pos (not_lt.1 after)]

end Steps

section Summaries

theorem Summary.congr {among among' : ℤ → ℤ → Prop} (summary : Summary src tgt among s)
    (same : ∀ i j, among i j ↔ among' i j) :
    Summary src tgt among' s := by
  have eq : among = among' := by
    funext i j
    exact propext (same i j)
  exact eq ▸ summary

theorem Summary.checkPair {among : ℤ → ℤ → Prop} (summary : Summary src tgt among s) :
    Summary src tgt (fun i' j' => among i' j' ∨ i' = i ∧ j' = j) (checkPair src tgt i j s) := by
  have step := seen_checkPair src tgt i j s
  have flag : ∀ p : ℤ → ℤ → Prop, (∃ i' j', (among i' j' ∨ i' = i ∧ j' = j) ∧ p i' j') ↔
    (∃ i' j', among i' j' ∧ p i' j') ∨ p i j := by
    intro p
    constructor
    · rintro ⟨i', j', mem | ⟨rfl, rfl⟩, holds⟩
      · exact .inl ⟨i', j', mem, holds⟩
      · exact .inr holds
    · rintro (⟨i', j', mem, holds⟩ | holds)
      · exact ⟨i', j', .inl mem, holds⟩
      · exact ⟨i, j, .inr ⟨rfl, rfl⟩, holds⟩
  have delays : ∀ (p : ℤ → ℤ → Prop) {d : ℚ} {value : ℤ → ℤ → ℚ}, p i j → d = value i j →
      {delay | ∃ i' j', (among i' j' ∨ i' = i ∧ j' = j) ∧ p i' j' ∧ delay = value i' j'} =
        Set.insert d {delay | ∃ i' j', among i' j' ∧ p i' j' ∧ delay = value i' j'} := by
    intro p d value holds eq
    ext delay
    constructor
    · rintro ⟨i', j', mem | ⟨rfl, rfl⟩, holds', rfl⟩
      · exact .inr ⟨i', j', mem, holds', rfl⟩
      · exact .inl eq.symm
    · rintro (rfl | ⟨i', j', mem, holds', rfl⟩)
      · exact ⟨i, j, .inr ⟨rfl, rfl⟩, holds, eq⟩
      · exact ⟨i', j', .inl mem, holds', rfl⟩
  have others : ∀ (p : ℤ → ℤ → Prop) {value : ℤ → ℤ → ℚ}, ¬p i j →
      {delay | ∃ i' j', (among i' j' ∨ i' = i ∧ j' = j) ∧ p i' j' ∧ delay = value i' j'} =
        {delay | ∃ i' j', among i' j' ∧ p i' j' ∧ delay = value i' j'} := by
    intro p value fails
    ext delay
    constructor
    · rintro ⟨i', j', mem | ⟨rfl, rfl⟩, holds', eq⟩
      · exact ⟨i', j', mem, holds', eq⟩
      · exact absurd holds' fails
    · rintro ⟨i', j', mem, holds', eq⟩
      exact ⟨i', j', .inl mem, holds', eq⟩
  by_cases after : src.cycleTime i < tgt.cycleTime j
  · rw [if_pos after] at step
    constructor
    · rw [flag fun i j => src.cycleTime i < tgt.cycleTime j]
      exact ⟨fun _ => .inr after, fun _ => congrArg Seen.tgtPastSrc step⟩
    · rw [flag fun i j => tgt.cycleTime j ≤ src.cycleTime i,← summary.srcPastTgt]
      have same : (CycleAccting.checkPair src tgt i j s).srcPastTgt = s.srcPastTgt := congrArg Seen.srcPastTgt step
      rw [same]
      exact ⟨.inl, fun either => either.resolve_right (not_le.2 after)⟩
    · have eq : (CycleAccting.checkPair src tgt i j s).delay .setup = _ := congrArg Seen.setup step
      rw [eq,setupDelays,delays (fun i j => src.cycleTime i < tgt.cycleTime j) after rfl]
      exact summary.setup.insert _
    · have eq : (CycleAccting.checkPair src tgt i j s).delay .hold = _ := congrArg Seen.hold step
      rw [eq,holdDelays,others (fun i j => tgt.cycleTime j ≤ src.cycleTime i) (not_le.2 after)]
      exact summary.hold
  · rw [if_neg after] at step
    constructor
    · rw [flag fun i j => src.cycleTime i < tgt.cycleTime j,← summary.tgtPastSrc]
      have same : (CycleAccting.checkPair src tgt i j s).tgtPastSrc = s.tgtPastSrc := congrArg Seen.tgtPastSrc step
      rw [same]
      exact ⟨.inl, fun either => either.resolve_right after⟩
    · rw [flag fun i j => tgt.cycleTime j ≤ src.cycleTime i]
      exact ⟨fun _ => .inr (not_lt.1 after), fun _ => congrArg Seen.srcPastTgt step⟩
    · have eq : (CycleAccting.checkPair src tgt i j s).delay .setup = _ := congrArg Seen.setup step
      rw [eq,setupDelays,others (fun i j => src.cycleTime i < tgt.cycleTime j) after]
      exact summary.setup
    · have eq : (CycleAccting.checkPair src tgt i j s).delay .hold = _ := congrArg Seen.hold step
      rw [eq,holdDelays,delays (fun i j => tgt.cycleTime j ≤ src.cycleTime i) (not_lt.1 after) rfl]
      exact summary.hold.insert _

end Summaries

section Cycles
variable {edge : ClockEdge} {a b : ℤ}

theorem cycleStart_mono (positive : 0 < edge.period) (le : a ≤ b) : edge.cycleStart a ≤ edge.cycleStart b :=
  mul_le_mul_of_nonneg_right (Int.cast_le.2 le) positive.le

theorem cycleTime_mono (positive : 0 < edge.period) (le : a ≤ b) : edge.cycleTime a ≤ edge.cycleTime b :=
  add_le_add_left (cycleStart_mono positive le) _

theorem cycleStart_succ (edge : ClockEdge) (a : ℤ) : edge.cycleStart (a + 1) = edge.cycleStart a + edge.period := by
  unfold ClockEdge.cycleStart
  push_cast
  ring

end Cycles

section Loops
variable (srcPeriod : 0 < src.period)
include srcPeriod

theorem InRow.of_le {i' : ℤ} (inRow : InRow src tgt i j) (first : src.firstCycle ≤ i') (le : i' ≤ i) :
    InRow src tgt i' j := by
  obtain ⟨-, tgtFirst, inside | ⟨row, start | before⟩⟩ := inRow
  · exact ⟨first, tgtFirst, .inl ((cycleStart_mono srcPeriod le).trans inside)⟩
  · exact ⟨first, tgtFirst, .inr ⟨row, .inl (le_antisymm (start ▸ le) first)⟩⟩
  · refine ⟨first, tgtFirst, .inr ⟨row, .inr ((cycleTime_mono srcPeriod ?_).trans_lt before)⟩⟩
    omega

omit srcPeriod in
theorem Arrived.synchronous (arrived : Arrived src tgt i j s) :
    ((s.tgtPastSrc && s.srcPastTgt) = true ∧ src.cycleStart i = tgt.cycleStart j) ↔ Synchronous src tgt i j := by
  rw [Bool.and_eq_true,arrived.summary.tgtPastSrc,arrived.summary.srcPastTgt]
  constructor
  · rintro ⟨⟨tgtPast, srcPast⟩, together⟩
    exact ⟨arrived.src_first, arrived.tgt_first, together, tgtPast, srcPast⟩
  · intro sync
    exact ⟨⟨sync.tgtPastSrc, sync.srcPastTgt⟩, sync.together⟩

theorem Arrived.inRow_iff (arrived : Arrived src tgt i j s) :
    InRow src tgt i j ↔ ¬(src.cycleStart i > tgt.cycleStart j + tgt.period ∧ s.srcPastTgt = true) := by
  constructor
  · rintro ⟨-, -, inside | ⟨row, start | before⟩⟩ ⟨beyond, past⟩
    · exact absurd beyond (not_lt.2 inside)
    · obtain ⟨i', j', ⟨⟨first, first', -⟩, earlier⟩, -⟩ := arrived.summary.srcPastTgt.1 past
      unfold Before at earlier
      omega
    · obtain ⟨i', j', ⟨⟨first, first', -⟩, earlier⟩, late⟩ := arrived.summary.srcPastTgt.1 past
      obtain rfl : j' = j := by
        unfold Before at earlier
        omega
      have le : i' ≤ i - 1 := by
        unfold Before at earlier
        omega
      exact absurd ((late.trans (cycleTime_mono srcPeriod le)).trans_lt before) (lt_irrefl _)
  · intro goes
    refine ⟨arrived.src_first, arrived.tgt_first, ?_⟩
    by_cases beyond : src.cycleStart i > tgt.cycleStart j + tgt.period
    · have early : ¬s.srcPastTgt = true := fun past => goes ⟨beyond, past⟩
      have row : j = tgt.firstCycle := by
        by_contra other
        exact early (arrived.past (lt_of_le_of_ne arrived.tgt_first (Ne.symm other)))
      refine .inr ⟨row, ?_⟩
      by_contra neither
      rw [not_or] at neither
      apply early
      apply arrived.summary.srcPastTgt.2
      have first := arrived.src_first
      have previous : InRow src tgt (i - 1) j := arrived.row (i - 1) (by omega) (by omega)
      exact ⟨i - 1, j, ⟨previous, .inr ⟨rfl, by omega⟩⟩, not_lt.1 neither.2⟩
    · exact .inl (not_lt.1 beyond)

theorem Arrived.next (arrived : Arrived src tgt i j s) (unsynced : ¬Synchronous src tgt i j)
    (inRow : InRow src tgt i j) :
    Arrived src tgt (i + 1) j (checkPair src tgt i j s) := by
  have split : ∀ {i' j'}, Before i' j' (i + 1) j ↔ Before i' j' i j ∨ i' = i ∧ j' = j := by
    intro i' j'
    unfold Before
    omega
  have first := arrived.src_first
  refine ⟨by omega, arrived.tgt_first, ?_, ?_, ?_, ?_, ?_⟩
  · exact fun i' first le => inRow.of_le srcPeriod first (by omega)
  · apply arrived.summary.checkPair.congr
    intro i' j'
    rw [split]
    constructor
    · rintro (⟨inside, earlier⟩ | ⟨rfl, rfl⟩)
      · exact ⟨inside, .inl earlier⟩
      · exact ⟨inRow, .inr ⟨rfl, rfl⟩⟩
    · rintro ⟨inside, earlier | here⟩
      · exact .inl ⟨inside, earlier⟩
      · exact .inr here
  · intro i' j' sync earlier
    rcases split.1 earlier with earlier | ⟨rfl, rfl⟩
    · exact arrived.unsynced i' j' sync earlier
    · exact unsynced sync
  · intro later
    have step := congrArg Seen.srcPastTgt (seen_checkPair src tgt i j s)
    refine Eq.trans step ?_
    split
    · exact arrived.past later
    · rfl
  · have step := congrArg Seen.maxCyclesExceeded (seen_checkPair src tgt i j s)
    refine Eq.trans step ?_
    split
    · exact arrived.going
    · exact arrived.going

/-- Past the end of a row, the next row begins. -/
theorem Arrived.nextRow (tgtPeriod : 0 < tgt.period) (arrived : Arrived src tgt i j s)
    (beyond : src.cycleStart i > tgt.cycleStart j + tgt.period) (past : s.srcPastTgt = true) :
    Arrived src tgt src.firstCycle (j + 1) s := by
  have ended : ¬InRow src tgt i j := fun inRow => (arrived.inRow_iff srcPeriod).1 inRow ⟨beyond, past⟩
  have first := arrived.tgt_first
  refine ⟨le_rfl, by omega, fun i' first lt => absurd first (not_le.2 lt), ?_, ?_, fun _ => past, arrived.going⟩
  · apply arrived.summary.congr
    intro i' j'
    constructor
    · rintro ⟨inside, earlier⟩
      refine ⟨inside, ?_⟩
      unfold Before at *
      omega
    · rintro ⟨inside, earlier⟩
      refine ⟨inside, ?_⟩
      have srcFirst := inside.1
      rcases lt_or_ge j' j with lt | ge
      · exact .inl lt
      · obtain rfl : j' = j := by
          unfold Before at earlier
          omega
        right
        refine ⟨rfl, ?_⟩
        by_contra later
        exact ended (inside.of_le srcPeriod arrived.src_first (not_lt.1 later))
  · intro i' j' sync earlier
    rcases lt_or_ge j' j with lt | ge
    · exact arrived.unsynced i' j' sync (.inl lt)
    · have srcFirst := sync.src_first
      obtain rfl : j' = j := by
        unfold Before at earlier
        omega
      rcases lt_or_ge i' i with lt | ge
      · exact arrived.unsynced i' j' sync (.inr ⟨rfl, lt⟩)
      · have later := cycleStart_mono srcPeriod ge
        have together := sync.together
        linarith

theorem srcLoop_arrived (tgtPeriod : 0 < tgt.period) {fuel : ℕ} {done : Bool} (arrived : Arrived src tgt i j s)
    (loop : srcLoop src tgt j fuel i s = some (done, s')) :
    (done = true ∧ ∃ stop, Synchronous src tgt stop j ∧ Arrived src tgt stop j s') ∨
      (done = false ∧ Arrived src tgt src.firstCycle (j + 1) s') := by
  induction fuel generalizing i s with
  | zero => cases loop
  | succ fuel ih =>
    unfold srcLoop at loop
    by_cases sync : (s.tgtPastSrc && s.srcPastTgt) = true ∧ src.cycleStart i = tgt.cycleStart j
    · rw [if_pos sync] at loop
      cases loop
      exact .inl ⟨rfl, i, arrived.synchronous.1 sync, arrived⟩
    rw [if_neg sync] at loop
    by_cases ends : src.cycleStart i > tgt.cycleStart j + tgt.period ∧ s.srcPastTgt = true
    · rw [if_pos ends] at loop
      cases loop
      exact .inr ⟨rfl, arrived.nextRow srcPeriod tgtPeriod ends.1 ends.2⟩
    · rw [if_neg ends] at loop
      have inRow := (arrived.inRow_iff srcPeriod).2 ends
      exact ih (arrived.next srcPeriod (fun synchronous => sync (arrived.synchronous.2 synchronous)) inRow) loop

theorem tgtLoop_arrived (tgtPeriod : 0 < tgt.period) {fuel : ℕ} (arrived : Arrived src tgt src.firstCycle j s)
    (loop : tgtLoop src tgt fuel j s = some s') :
    s'.maxCyclesExceeded = true ∨ ∃ i j, Synchronous src tgt i j ∧ Arrived src tgt i j s' := by
  induction fuel generalizing j s with
  | zero => cases loop
  | succ fuel ih =>
    unfold tgtLoop at loop
    by_cases more : j ≤ tgtMaxCycle src tgt
    · rw [if_pos more] at loop
      obtain ⟨⟨done, s₁⟩, row, after⟩ := Option.bind_eq_some_iff.1 loop
      rcases srcLoop_arrived srcPeriod tgtPeriod arrived row with ⟨rfl, stop, sync, arrived'⟩ | ⟨rfl, arrived'⟩
      · cases after
        exact .inr ⟨stop, j, sync, arrived'⟩
      · exact ih arrived' after
    · rw [if_neg more] at loop
      cases loop
      exact .inl rfl

/-- The loop over the source cycles ends by its last cycle. -/
theorem srcLoop_terminates {fuel : ℕ} (le : i ≤ lastSrcCycle src tgt j)
    (past : i = lastSrcCycle src tgt j → s.srcPastTgt = true) (enough : (lastSrcCycle src tgt j - i).toNat < fuel) :
    ∃ done s', srcLoop src tgt j fuel i s = some (done, s') := by
  induction fuel generalizing i s with
  | zero => exact absurd enough (Nat.not_lt_zero _)
  | succ fuel ih =>
    unfold srcLoop
    by_cases sync : (s.tgtPastSrc && s.srcPastTgt) = true ∧ src.cycleStart i = tgt.cycleStart j
    · exact ⟨true, s, if_pos sync⟩
    rw [if_neg sync]
    by_cases ends : src.cycleStart i > tgt.cycleStart j + tgt.period ∧ s.srcPastTgt = true
    · exact ⟨false, s, if_pos ends⟩
    rw [if_neg ends]
    have reached : ∀ cycle : ℤ, lastSrcCycle src tgt j - 1 ≤ cycle →
        tgt.cycleStart j + tgt.period ≤ src.cycleStart cycle ∧ tgt.cycleTime j ≤ src.cycleTime cycle := by
      intro cycle after
      have ceil : max (tgt.cycleStart j + tgt.period) (tgt.cycleTime j - src.time) / src.period ≤ cycle := by
        apply (Int.le_ceil _).trans
        apply Int.cast_le.2
        have below := le_max_left (⌈max (tgt.cycleStart j + tgt.period) (tgt.cycleTime j - src.time) / src.period⌉ + 1)
          (src.firstCycle + 1)
        unfold lastSrcCycle at after
        omega
      have start : max (tgt.cycleStart j + tgt.period) (tgt.cycleTime j - src.time) ≤ src.cycleStart cycle :=
        (div_le_iff₀ srcPeriod).1 ceil
      refine ⟨(le_max_left _ _).trans start, ?_⟩
      have late := (le_max_right _ _).trans start
      unfold ClockEdge.cycleTime at *
      linarith
    have lt : i < lastSrcCycle src tgt j := by
      apply lt_of_le_of_ne le
      intro last
      apply ends
      refine ⟨?_, past last⟩
      have before := (reached (i - 1) (by omega)).1
      have next := cycleStart_succ src (i - 1)
      rw [sub_add_cancel] at next
      linarith
    apply ih (by omega) _ (by omega)
    intro last
    have late := (reached i (by omega)).2
    have step := congrArg Seen.srcPastTgt (seen_checkPair src tgt i j s)
    rw [if_neg (not_lt.2 late)] at step
    exact step

theorem tgtLoop_terminates {fuel : ℕ} (enough : (tgtMaxCycle src tgt + 1 - j).toNat < fuel) :
    ∃ s', tgtLoop src tgt fuel j s = some s' := by
  induction fuel generalizing j s with
  | zero => exact absurd enough (Nat.not_lt_zero _)
  | succ fuel ih =>
    unfold tgtLoop
    by_cases more : j ≤ tgtMaxCycle src tgt
    · rw [if_pos more]
      have first : src.firstCycle < lastSrcCycle src tgt j := (Int.lt_succ _).trans_le (le_max_right _ _)
      obtain ⟨done, s₁, row⟩ :=
        srcLoop_terminates srcPeriod first.le (fun last => absurd last first.ne) (Nat.lt_succ_self _) (s := s)
      rw [row]
      cases done with
      | true => exact ⟨s₁, rfl⟩
      | false => exact ih (by omega)
    · exact ⟨_, if_neg more⟩

end Loops

theorem arrived_start (src tgt : ClockEdge) : Arrived src tgt src.firstCycle tgt.firstCycle .start := by
  have none : ∀ i j, ¬(InRow src tgt i j ∧ Before i j src.firstCycle tgt.firstCycle) := by
    rintro i j ⟨⟨first, first', -⟩, earlier⟩
    unfold Before at earlier
    omega
  refine ⟨le_rfl, le_rfl, fun i first lt => absurd first (not_le.2 lt), ⟨?_, ?_, ?_, ?_⟩, ?_, fun lt =>
    absurd lt (lt_irrefl _), rfl⟩
  · exact ⟨fun flag => absurd flag Bool.false_ne_true, fun ⟨i, j, mem, _⟩ => absurd mem (none i j)⟩
  · exact ⟨fun flag => absurd flag Bool.false_ne_true, fun ⟨i, j, mem, _⟩ => absurd mem (none i j)⟩
  · have eq : setupDelays src tgt (fun i j => InRow src tgt i j ∧ Before i j src.firstCycle tgt.firstCycle) = ∅ :=
      Set.eq_empty_of_forall_notMem fun delay ⟨i, j, mem, _⟩ => none i j mem
    rw [eq]
    exact .empty _
  · have eq : holdDelays src tgt (fun i j => InRow src tgt i j ∧ Before i j src.firstCycle tgt.firstCycle) = ∅ :=
      Set.eq_empty_of_forall_notMem fun delay ⟨i, j, mem, _⟩ => none i j mem
    rw [eq]
    exact .empty _
  · rintro i j sync earlier
    have first := sync.src_first
    have first' := sync.tgt_first
    unfold Before at earlier
    omega

/-- At a synchronous pair, the pairs that were looked at are the scanned ones. -/
theorem Arrived.scanned (arrived : Arrived src tgt i j s) (sync : Synchronous src tgt i j) :
    Summary src tgt (Scanned src tgt) s := by
  apply arrived.summary.congr
  intro i' j'
  constructor
  · rintro ⟨inside, earlier⟩
    refine ⟨inside, fun i'' j'' sync' => ?_⟩
    have later := arrived.unsynced i'' j'' sync'
    unfold Before at *
    omega
  · rintro ⟨inside, early⟩
    exact ⟨inside, early i j sync⟩

/-- The loops end, and without too many cycles the delays are those of the closest pairs exactly when these are
scanned. -/
theorem findDelays_iff (srcPeriod : 0 < src.period) (tgtPeriod : 0 < tgt.period) :
    ∃ acct, findDelays src tgt = some acct ∧
    (acct.maxCyclesExceeded = false → (Separated src tgt acct ↔
      ClosestScanned src tgt (setupDelays src tgt) ∧ ClosestScanned src tgt (holdDelays src tgt))) := by
  have ends : ∃ acct, tgtLoop src tgt ((tgtMaxCycle src tgt + 1 - tgt.firstCycle).toNat + 1) tgt.firstCycle .start =
    some acct :=
    tgtLoop_terminates srcPeriod (Nat.lt_succ_self _)
  obtain ⟨acct, loop⟩ := ends
  refine ⟨acct, (if_pos ⟨tgtPeriod, srcPeriod⟩).trans loop, fun within => ?_⟩
  rcases tgtLoop_arrived srcPeriod tgtPeriod (arrived_start src tgt) loop with exceeded | ⟨i, j, sync, arrived⟩
  · rw [exceeded] at within
    cases within
  · have summary := arrived.scanned sync
    have setup : setupDelays src tgt (Scanned src tgt) ⊆ setupDelays src tgt fun _ _ => True :=
      fun delay ⟨i, j, _, after, eq⟩ => ⟨i, j, trivial, after, eq⟩
    have hold : holdDelays src tgt (Scanned src tgt) ⊆ holdDelays src tgt fun _ _ => True :=
      fun delay ⟨i, j, _, past, eq⟩ => ⟨i, j, trivial, past, eq⟩
    exact and_congr (summary.setup.isLeast_iff setup) (summary.hold.isLeast_iff hold)

def evenEdge : ClockEdge := ⟨0, 1, 2⟩

/-- Of a clock of period 3, in its second period. -/
def secondEdge : ClockEdge := ⟨4, 5, 3⟩

theorem findDelays_iff_edges : (0 < evenEdge.period ∧ 0 < secondEdge.period) ∧
    ∃ acct, findDelays evenEdge secondEdge = some acct ∧
    (acct.maxCyclesExceeded = false → (Separated evenEdge secondEdge acct ↔
      ClosestScanned evenEdge secondEdge (setupDelays evenEdge secondEdge) ∧
        ClosestScanned evenEdge secondEdge (holdDelays evenEdge secondEdge))) :=
  ⟨⟨by decide, by decide⟩, findDelays_iff (by decide) (by decide)⟩

/-- Both flags are set in the first row, so that the loops return at the first pair of the second row. -/
theorem hold_missed : (0 < evenEdge.period ∧ -evenEdge.period < evenEdge.time ∧ evenEdge.time < 2 * evenEdge.period) ∧
    (0 < secondEdge.period ∧ -secondEdge.period < secondEdge.time ∧ secondEdge.time < 2 * secondEdge.period) ∧
    ∃ acct, findDelays evenEdge secondEdge = some acct ∧ acct.maxCyclesExceeded = false ∧
    ¬Separated evenEdge secondEdge acct := by
  have computed : (findDelays evenEdge secondEdge).map (fun acct => (acct.maxCyclesExceeded, acct.delay .hold)) =
    some (false, 1) := by
    decide +kernel
  obtain ⟨acct, run, values⟩ := Option.map_eq_some_iff.1 computed
  refine ⟨by decide +kernel, by decide +kernel, acct, run, congrArg Prod.fst values, ?_⟩
  rintro ⟨-, hold⟩
  have zero : (0 : ℚ) ∈ holdDelays evenEdge secondEdge fun _ _ => True :=
    ⟨2, 0, trivial, by decide +kernel, by decide +kernel⟩
  have stored : acct.delay .hold = 1 := congrArg Prod.snd values
  have bound := hold.2 zero
  rw [stored] at bound
  exact absurd bound (by decide)

end GTPower.CycleAccting
