import Mathlib

/-! Merging finitely many lanes of timed records. Every lane has a position; a round takes the
least pending time and advances each lane whose pending record has that time. A schedule is the
list of rounds, each with its time and the positions before it. -/
namespace GTPower.Frontier

section Rounds
variable {ι : Type*} (lanes : List ι) (time : ι → Nat → Nat) (stop : ι → Nat)

/-- The least time of a pending record. -/
def nextTime? (pos : ι → Nat) : Option Nat :=
  ((lanes.filter fun i => pos i < stop i).map fun i => time i (pos i)).min?

def due (pos : ι → Nat) (now : Nat) (i : ι) : Bool := pos i < stop i && time i (pos i) == now

def advance (pos : ι → Nat) (now : Nat) : ι → Nat :=
  fun i => if due time stop pos now i then pos i + 1 else pos i

def remaining (pos : ι → Nat) : Nat := (lanes.map fun i => stop i - pos i).sum

def rounds : Nat → (ι → Nat) → List (Nat × (ι → Nat))
  | 0, _ => []
  | fuel + 1, pos =>
    match nextTime? lanes time stop pos with
    | none => []
    | some now => (now, pos) :: rounds fuel (advance time stop pos now)

def schedule (pos : ι → Nat) : List (Nat × (ι → Nat)) := rounds lanes time stop (remaining lanes stop pos) pos

variable {lanes time stop}

theorem due_iff : due time stop pos now i ↔ pos i < stop i ∧ time i (pos i) = now := by simp [due]

theorem advance_of_due (h : due time stop pos now i) : advance time stop pos now i = pos i + 1 := by
  simp [advance,h]

theorem advance_of_not_due (h : ¬ due time stop pos now i) : advance time stop pos now i = pos i := by
  simp [advance,h]

theorem le_advance : pos i ≤ advance time stop pos now i := by
  unfold advance; split <;> omega

theorem nextTime?_eq_none_iff : nextTime? lanes time stop pos = none ↔ ∀ i ∈ lanes, stop i ≤ pos i := by
  simp [nextTime?,List.min?_eq_none_iff]

theorem nextTime?_eq_some_iff : nextTime? lanes time stop pos = some now ↔
    (∃ i ∈ lanes, due time stop pos now i) ∧ ∀ i ∈ lanes, pos i < stop i → now ≤ time i (pos i) := by
  rw [nextTime?,List.min?_eq_some_iff]
  simp only [List.mem_map,List.mem_filter,decide_eq_true_eq,due_iff,and_assoc]
  exact and_congr_right' ⟨fun h i mem more => h _ ⟨i, mem, more, rfl⟩,
    fun h _ ⟨i, mem, more, same⟩ => same ▸ h i mem more⟩

theorem remaining_advance_lt (next : nextTime? lanes time stop pos = some now) :
    remaining lanes stop (advance time stop pos now) < remaining lanes stop pos := by
  obtain ⟨⟨i, mem, hit⟩, -⟩ := nextTime?_eq_some_iff.mp next
  refine List.sum_lt_sum (fun i => stop i - advance time stop pos now i) (fun i => stop i - pos i) ?_ ?_
  · intro j _
    have : pos j ≤ advance time stop pos now j := le_advance
    omega
  · refine ⟨i, mem, ?_⟩
    rw [advance_of_due hit]
    have := (due_iff.mp hit).1
    omega

theorem rounds_of_enough (enough : remaining lanes stop pos ≤ fuel) :
    rounds lanes time stop fuel pos = schedule lanes time stop pos := by
  rw [schedule]
  induction fuel using Nat.strong_induction_on generalizing pos with
  | h fuel ih =>
    generalize same : remaining lanes stop pos = needed at enough
    cases next : nextTime? lanes time stop pos with
    | none => cases fuel <;> cases needed <;> simp [rounds,next]
    | some now =>
      have less := remaining_advance_lt next
      rw [same] at less
      obtain ⟨fuel, rfl⟩ : ∃ m, fuel = m + 1 := ⟨fuel - 1, by omega⟩
      obtain ⟨needed, rfl⟩ : ∃ m, needed = m + 1 := ⟨needed - 1, by omega⟩
      simp only [rounds,next]
      rw [ih fuel (by omega) (by omega)]
      by_cases last : needed < fuel + 1
      · rw [ih needed last (by omega)]
      · omega

theorem schedule_of_none (next : nextTime? lanes time stop pos = none) : schedule lanes time stop pos = [] := by
  unfold schedule
  cases remaining lanes stop pos <;> simp [rounds,next]

theorem schedule_of_some (next : nextTime? lanes time stop pos = some now) :
    schedule lanes time stop pos = (now, pos) :: schedule lanes time stop (advance time stop pos now) := by
  have less := remaining_advance_lt next
  have enough : rounds lanes time stop (remaining lanes stop pos - 1 + 1) pos = schedule lanes time stop pos :=
    rounds_of_enough (by omega)
  rw [← enough]
  simp only [rounds,next]
  rw [rounds_of_enough (by omega)]

/-- Induction along a schedule: stop when no lane is pending, otherwise take one round. -/
theorem schedule_induction (lanes : List ι) (time : ι → Nat → Nat) (stop : ι → Nat) {motive : (ι → Nat) → Prop}
    (pos : ι → Nat) (done : ∀ pos, nextTime? lanes time stop pos = none → motive pos)
    (round : ∀ pos now, nextTime? lanes time stop pos = some now → motive (advance time stop pos now) → motive pos) :
    motive pos := by
  induction size : remaining lanes stop pos using Nat.strong_induction_on generalizing pos with
  | h size ih =>
    cases next : nextTime? lanes time stop pos with
    | none => exact done pos next
    | some now =>
      have less := remaining_advance_lt next
      exact round pos now next (ih _ (by omega) _ rfl)

theorem max_advance_stop :
    (fun i => max (advance time stop pos now i) (stop i)) = fun i => max (pos i) (stop i) := by
  funext i
  by_cases hit : due time stop pos now i
  · have := (due_iff.mp hit).1
    rw [advance_of_due hit]; omega
  · rw [advance_of_not_due hit]

theorem max_stop_of_done (all : ∀ i, i ∈ lanes) (done : nextTime? lanes time stop pos = none) :
    (fun i => max (pos i) (stop i)) = pos :=
  funext fun i => max_eq_left (nextTime?_eq_none_iff.mp done i (all i))

theorem schedule_length_le : (schedule lanes time stop pos).length ≤ remaining lanes stop pos := by
  induction pos using schedule_induction lanes time stop with
  | done pos next => simp [schedule_of_none next]
  | round pos now next ih =>
    have less := remaining_advance_lt next
    simp only [schedule_of_some next,List.length_cons]
    omega

end Rounds

section Positions
variable {ι : Type*} {lanes : List ι} {time : ι → Nat → Nat} {stop : ι → Nat}

theorem nextTime?_of_mem (mem : entry ∈ schedule lanes time stop pos) :
    nextTime? lanes time stop entry.2 = some entry.1 ∧ ∀ i, pos i ≤ entry.2 i := by
  induction pos using schedule_induction lanes time stop with
  | done pos next => simp [schedule_of_none next] at mem
  | round pos now next ih =>
    rw [schedule_of_some next] at mem
    rcases List.mem_cons.mp mem with rfl | later
    · exact ⟨next, fun _ => Nat.le_refl _⟩
    · exact ⟨(ih later).1, fun i => Nat.le_trans le_advance ((ih later).2 i)⟩

theorem schedule_invariant (holds : (ι → Nat) → Prop)
    (kept : ∀ pos now, nextTime? lanes time stop pos = some now → holds pos → holds (advance time stop pos now))
    (start : holds pos) : ∀ entry ∈ schedule lanes time stop pos, holds entry.2 := by
  induction pos using schedule_induction lanes time stop with
  | done pos next => simp [schedule_of_none next]
  | round pos now next ih =>
    rw [schedule_of_some next]
    intro entry mem
    rcases List.mem_cons.mp mem with rfl | later
    · exact start
    · exact ih (kept pos now next start) entry later

def Sorted (time : ι → Nat → Nat) (base stop : ι → Nat) : Prop :=
  ∀ i j k, base i ≤ j → j ≤ k → k < stop i → time i j ≤ time i k

def StrictlySorted (time : ι → Nat → Nat) (base stop : ι → Nat) : Prop :=
  ∀ i j k, base i ≤ j → j < k → k < stop i → time i j < time i k

theorem StrictlySorted.sorted (strict : StrictlySorted time base stop) : Sorted time base stop := by
  intro i j k low order high
  rcases Nat.eq_or_lt_of_le order with rfl | less
  · exact Nat.le_refl _
  · exact Nat.le_of_lt (strict i j k low less high)

theorem Sorted.mono (sorted : Sorted time base stop) (low : ∀ i, base i ≤ base' i) (high : ∀ i, stop' i ≤ stop i) :
    Sorted time base' stop' :=
  fun i j k hj hjk hk => sorted i j k (Nat.le_trans (low i) hj) hjk (Nat.lt_of_lt_of_le hk (high i))

theorem Sorted.advance (sorted : Sorted time pos stop) : Sorted time (advance time stop pos now) stop :=
  sorted.mono (fun _ => le_advance) (fun _ => Nat.le_refl _)

/-- A cut that separates the records before a time from those at or after it. -/
structure CutAt (time : ι → Nat → Nat) (pos cut stop : ι → Nat) (split : Nat) : Prop where
  within : ∀ i, cut i ≤ stop i
  before : ∀ i k, pos i ≤ k → k < cut i → time i k < split
  after : ∀ i k, pos i ≤ k → cut i ≤ k → k < stop i → split ≤ time i k

theorem CutAt.mono (separates : CutAt time pos cut stop split) (onward : ∀ i, pos i ≤ pos' i) :
    CutAt time pos' cut stop split :=
  ⟨separates.within, fun i k low => separates.before i k (Nat.le_trans (onward i) low),
    fun i k low => separates.after i k (Nat.le_trans (onward i) low)⟩

section Order
variable (all : ∀ i, i ∈ lanes)
include all

theorem next_le (sorted : Sorted time pos stop) (next : nextTime? lanes time stop pos = some now)
    (low : pos i ≤ k) (high : k < stop i) : now ≤ time i k :=
  Nat.le_trans ((nextTime?_eq_some_iff.mp next).2 i (all i) (by omega)) (sorted i _ k (Nat.le_refl _) low high)

theorem next_lt_of_advanced (strict : StrictlySorted time pos stop)
    (next : nextTime? lanes time stop pos = some now) (low : advance time stop pos now i ≤ k) (high : k < stop i) :
    now < time i k := by
  have past : pos i ≤ k := Nat.le_trans le_advance low
  have first := (nextTime?_eq_some_iff.mp next).2 i (all i) (by omega)
  by_cases hit : due time stop pos now i
  · rw [advance_of_due hit] at low
    rw [← (due_iff.mp hit).2]
    exact strict i _ _ (Nat.le_refl _) (by omega) high
  · rcases Nat.eq_or_lt_of_le first with same | less
    · exact absurd (due_iff.mpr ⟨by omega, same.symm⟩) hit
    · exact Nat.lt_of_lt_of_le less (strict.sorted i _ k (Nat.le_refl _) past high)

omit all in
/-- Before the time of a cut, the records due are the same with and without the cut. -/
theorem CutAt.due_eq (separates : CutAt time pos cut stop split) (early : now < split) :
    due time stop pos now = due time cut pos now := by
  funext i
  rw [Bool.eq_iff_iff,due_iff,due_iff]
  refine and_congr_left fun same => ⟨fun high => ?_, fun high => Nat.lt_of_lt_of_le high (separates.within i)⟩
  by_contra outside
  have := separates.after i _ (Nat.le_refl _) (by omega) high
  omega

omit all in
theorem CutAt.due_eq_of_mem (separates : CutAt time pos cut stop split) (mem : entry ∈ schedule lanes time cut pos) :
    due time stop entry.2 entry.1 = due time cut entry.2 entry.1 := by
  obtain ⟨next, onward⟩ := nextTime?_of_mem mem
  obtain ⟨i, -, hit⟩ := (nextTime?_eq_some_iff.mp next).1
  obtain ⟨more, same⟩ := due_iff.mp hit
  refine (separates.mono onward).due_eq ?_
  exact same ▸ separates.before i _ (onward i) more

theorem schedule_append (separates : CutAt time pos cut stop split) :
    schedule lanes time stop pos =
      schedule lanes time cut pos ++ schedule lanes time stop (fun i => max (pos i) (cut i)) := by
  induction pos using schedule_induction lanes time cut with
  | done pos next =>
    rw [schedule_of_none next,max_stop_of_done all next,List.nil_append]
  | round pos now next ih =>
    obtain ⟨⟨i, mem, hit⟩, least⟩ := nextTime?_eq_some_iff.mp next
    obtain ⟨more, same⟩ := due_iff.mp hit
    have early : now < split := same ▸ separates.before i _ (Nat.le_refl _) more
    have next' : nextTime? lanes time stop pos = some now := by
      refine nextTime?_eq_some_iff.mpr ⟨⟨i, mem, due_iff.mpr ⟨?_, same⟩⟩, fun j memj morej => ?_⟩
      · exact Nat.lt_of_lt_of_le more (separates.within i)
      · by_cases inside : pos j < cut j
        · exact least j memj inside
        · exact Nat.le_of_lt (Nat.lt_of_lt_of_le early (separates.after j _ (Nat.le_refl _) (by omega) morej))
    have step : advance time stop pos now = advance time cut pos now := by
      funext j
      simp only [advance,separates.due_eq early]
    rw [schedule_of_some next,schedule_of_some next',step,List.cons_append]
    congr 1
    rw [ih (separates.mono fun _ => le_advance),max_advance_stop]

end Order
end Positions

section Visits
variable {ι : Type*} {lanes : List ι} {time : ι → Nat → Nat} {stop : ι → Nat}

/-- The records a schedule takes, lane and index, round by round. -/
def visits (lanes : List ι) (time : ι → Nat → Nat) (stop : ι → Nat) (pos : ι → Nat) : List (ι × Nat) :=
  (schedule lanes time stop pos).flatMap fun entry =>
    (lanes.filter (due time stop entry.2 entry.1)).map fun i => (i, entry.2 i)

theorem visits_of_none (next : nextTime? lanes time stop pos = none) : visits lanes time stop pos = [] := by
  simp [visits,schedule_of_none next]

theorem visits_of_some (next : nextTime? lanes time stop pos = some now) :
    visits lanes time stop pos = ((lanes.filter (due time stop pos now)).map fun i => (i, pos i)) ++
      visits lanes time stop (advance time stop pos now) := by
  simp [visits,schedule_of_some next]

theorem mem_visits (mem : i ∈ lanes) : (i, k) ∈ visits lanes time stop pos ↔ pos i ≤ k ∧ k < stop i := by
  induction pos using schedule_induction lanes time stop with
  | done pos next =>
    have := nextTime?_eq_none_iff.mp next i mem
    simp only [visits_of_none next,List.not_mem_nil,false_iff]
    omega
  | round pos now next ih =>
    rw [visits_of_some next,List.mem_append,ih]
    simp only [List.mem_map,List.mem_filter,Prod.mk.injEq]
    by_cases hit : due time stop pos now i
    · have := (due_iff.mp hit).1
      rw [advance_of_due hit]
      constructor
      · rintro (⟨j, -, rfl, rfl⟩ | later) <;> omega
      · intro range
        by_cases here : k = pos i
        · exact Or.inl ⟨i, ⟨mem, hit⟩, rfl, here.symm⟩
        · exact Or.inr (by omega)
    · rw [advance_of_not_due hit]
      constructor
      · rintro (⟨j, ⟨-, hitj⟩, rfl, rfl⟩ | later)
        · exact absurd hitj hit
        · exact later
      · exact Or.inr

theorem visits_nodup (distinct : lanes.Nodup) : (visits lanes time stop pos).Nodup := by
  induction pos using schedule_induction lanes time stop with
  | done pos next => simp [visits_of_none next]
  | round pos now next ih =>
    rw [visits_of_some next,List.nodup_append]
    refine ⟨(distinct.filter _).map fun _ _ same => (Prod.mk.inj same).1, ih, ?_⟩
    rintro ⟨i, k⟩ first ⟨j, m⟩ later same
    obtain ⟨rfl, rfl⟩ := Prod.mk.inj same
    simp only [List.mem_map,List.mem_filter,Prod.mk.injEq] at first
    obtain ⟨i, ⟨mem, hit⟩, rfl, rfl⟩ := first
    have := ((mem_visits mem).mp later).1
    rw [advance_of_due hit] at this
    omega

theorem visits_sorted (all : ∀ i, i ∈ lanes) (sorted : Sorted time pos stop) :
    (visits lanes time stop pos).Pairwise fun a b => time a.1 a.2 ≤ time b.1 b.2 := by
  induction pos using schedule_induction lanes time stop with
  | done pos next => simp [visits_of_none next]
  | round pos now next ih =>
    have here : ∀ a ∈ (lanes.filter (due time stop pos now)).map fun i => (i, pos i), time a.1 a.2 = now := by
      intro a mem
      obtain ⟨i, hit, rfl⟩ := List.mem_map.mp mem
      exact (due_iff.mp (List.mem_filter.mp hit).2).2
    rw [visits_of_some next,List.pairwise_append]
    refine ⟨List.Pairwise.imp_of_mem (fun a b => ?_) (List.pairwise_of_forall fun _ _ => trivial), ih sorted.advance,
      fun a first b later => ?_⟩
    · intro _
      rw [here _ a,here _ b]
    · obtain ⟨low, high⟩ := (mem_visits (all b.1)).mp later
      rw [here _ first]
      exact next_le all sorted next (Nat.le_trans le_advance low) high

end Visits

end GTPower.Frontier
