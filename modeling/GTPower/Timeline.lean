import Mathlib

/-! Values held over half-open spans of natural time. Spans that follow one another without gaps
cover every instant between their ends once, and integrate any function they trace. -/
namespace GTPower.Timeline

/-- Boundaries that do not decrease put every instant between the first and the last into one gap. -/
theorem existsUnique_between {bounds : Nat → Nat} (mono : Monotone bounds) (low : bounds 0 ≤ instant)
    (high : instant < bounds count) : ∃! t, t < count ∧ bounds t ≤ instant ∧ instant < bounds (t + 1) := by
  have found : ∃ t < count, bounds t ≤ instant ∧ instant < bounds (t + 1) := by
    induction count with
    | zero => omega
    | succ count ih =>
      by_cases early : instant < bounds count
      · obtain ⟨t, less, inside⟩ := ih early
        exact ⟨t, Nat.lt_succ_of_lt less, inside⟩
      · exact ⟨count, Nat.lt_succ_self _, Nat.le_of_not_lt early, high⟩
  obtain ⟨t, less, reached, before⟩ := found
  refine ⟨t, ⟨less, reached, before⟩, ?_⟩
  rintro other ⟨-, reached', before'⟩
  rcases Nat.lt_trichotomy other t with early | same | late
  · have := mono early
    simp only [Nat.succ_eq_add_one] at this
    omega
  · exact same
  · have := mono late
    simp only [Nat.succ_eq_add_one] at this
    omega

structure Span (α : Type*) where
  start : Nat
  stop : Nat
  value : α
  deriving DecidableEq

/-- The spans follow one another from `first` to `last`. -/
inductive Chain : Nat → List (Span α) → Nat → Prop
  | nil : Chain first [] first
  | cons (span : Span α) (forward : span.start ≤ span.stop) (tail : Chain span.stop rest last) :
      Chain span.start (span :: rest) last

theorem Chain.append (front : Chain first spans middle) (back : Chain middle spans' last) :
    Chain first (spans ++ spans') last := by
  induction front with
  | nil => exact back
  | cons span forward _ ih => exact .cons span forward (ih back)

theorem Chain.le (chain : Chain first spans last) : first ≤ last := by
  induction chain with
  | nil => exact Nat.le_refl _
  | cons _ forward _ ih => exact Nat.le_trans forward ih

theorem Chain.inside (chain : Chain first spans last) (mem : span ∈ spans) :
    first ≤ span.start ∧ span.start ≤ span.stop ∧ span.stop ≤ last := by
  induction chain with
  | nil => cases mem
  | cons _ forward tail ih =>
    rcases List.mem_cons.mp mem with rfl | later
    · exact ⟨Nat.le_refl _, forward, tail.le⟩
    · obtain ⟨low, ordered, high⟩ := ih later
      exact ⟨Nat.le_trans forward low, ordered, high⟩

theorem Chain.flatMap_self {l : List β} {f : β → List (Span α)} (each : ∀ x ∈ l, Chain instant (f x) instant) :
    Chain instant (l.flatMap f) instant := by
  induction l with
  | nil => exact .nil
  | cons x rest ih =>
    exact (each x (List.mem_cons_self ..)).append (ih fun y mem => each y (List.mem_cons_of_mem _ mem))

/-- How many spans hold at an instant. -/
def covering (instant : Nat) (spans : List (Span α)) : Nat :=
  spans.countP fun span => span.start ≤ instant && instant < span.stop

theorem covering_append : covering instant (spans ++ spans') = covering instant spans + covering instant spans' :=
  List.countP_append

theorem covering_flatMap (l : List β) (f : β → List (Span α)) :
    covering instant (l.flatMap f) = (l.map fun x => covering instant (f x)).sum := by
  induction l with
  | nil => rfl
  | cons x rest ih => rw [List.flatMap_cons,covering_append,ih,List.map_cons,List.sum_cons]

theorem Chain.covering (chain : Chain first spans last) (instant : Nat) :
    covering instant spans = if first ≤ instant ∧ instant < last then 1 else 0 := by
  induction chain with
  | nil => simp [Timeline.covering]
  | cons span forward tail ih =>
    have onward := tail.le
    rw [← List.singleton_append,covering_append,ih]
    by_cases here : span.start ≤ instant ∧ instant < span.stop
    · have single : Timeline.covering instant [span] = 1 := by simp [Timeline.covering,here]
      rw [single,if_neg (by omega),if_pos ⟨here.1, by omega⟩]
    · simp only [Timeline.covering,List.countP_singleton,Bool.and_eq_true,decide_eq_true_eq,if_neg here]
      split <;> split <;> omega

/-- The spans hold the value of `f` at each of their instants. -/
def Traces (f : Nat → α) (spans : List (Span α)) : Prop :=
  ∀ span ∈ spans, ∀ instant, span.start ≤ instant → instant < span.stop → f instant = span.value

theorem traces_append : Traces f (spans ++ spans') ↔ Traces f spans ∧ Traces f spans' := by
  simp only [Traces,List.mem_append]
  exact ⟨fun h => ⟨fun span mem => h span (Or.inl mem), fun span mem => h span (Or.inr mem)⟩,
    fun h span mem => mem.elim (h.1 span) (h.2 span)⟩

theorem Chain.traces_self {spans : List (Span α)} (chain : Chain first spans first) (f : Nat → α) : Traces f spans := by
  intro span mem instant low high
  obtain ⟨start, -, stop⟩ := chain.inside mem
  omega

theorem Chain.sum_length {spans : List (Span α)} (chain : Chain first spans last) :
    (spans.map fun span => (span.stop : ℚ) - span.start).sum = (last : ℚ) - first := by
  induction chain with
  | nil => simp
  | cons span _ _ ih =>
    rw [List.map_cons,List.sum_cons,ih]
    ring

def integral (spans : List (Span ℚ)) : ℚ := (spans.map fun span => span.value * ((span.stop : ℚ) - span.start)).sum

/-- A weighted sum over the instants of each span is one over the instants of the chain. -/
theorem Chain.sum_weighted (chain : Chain first spans last) (traces : Traces f spans) (weight : Nat → ℚ) :
    (spans.map fun span => ∑ instant ∈ Finset.Ico span.start span.stop, weight instant * span.value).sum =
      ∑ instant ∈ Finset.Ico first last, weight instant * f instant := by
  induction chain with
  | nil => simp
  | cons span forward tail ih =>
    have held : ∑ instant ∈ Finset.Ico span.start span.stop, weight instant * f instant =
        ∑ instant ∈ Finset.Ico span.start span.stop, weight instant * span.value :=
      Finset.sum_congr rfl fun instant mem => by
        rw [traces span (List.mem_cons_self ..) instant (Finset.mem_Ico.mp mem).1 (Finset.mem_Ico.mp mem).2]
    rw [List.map_cons,List.sum_cons,ih fun other mem => traces other (List.mem_cons_of_mem _ mem),← held,
      Finset.sum_Ico_consecutive _ forward tail.le]

theorem Chain.integral (chain : Chain first spans last) (traces : Traces f spans) :
    integral spans = ∑ instant ∈ Finset.Ico first last, f instant := by
  have unit := chain.sum_weighted traces fun _ => 1
  simp only [one_mul] at unit
  rw [← unit]
  refine congrArg List.sum (List.map_congr_left fun span mem => ?_)
  obtain ⟨-, forward, -⟩ := chain.inside mem
  rw [Finset.sum_const,Nat.card_Ico,nsmul_eq_mul,Nat.cast_sub forward,mul_comm]

end GTPower.Timeline
