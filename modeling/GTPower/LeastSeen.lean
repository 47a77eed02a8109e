import Mathlib.Order.Bounds.Basic

/-! The least of the values seen so far, below an initial value. -/
namespace GTPower

variable {K : Type*} [LinearOrder K]

/-- `least` is the least of the values in `seen` and the initial one. -/
structure LeastSeen (initial : K) (seen : Set K) (least : K) : Prop where
  le_initial : least ≤ initial
  le_seen : ∀ value ∈ seen, least ≤ value
  attained : least = initial ∨ least ∈ seen

namespace LeastSeen
variable {initial least value : K} {seen all : Set K}

theorem empty (initial : K) : LeastSeen initial ∅ initial :=
  ⟨le_rfl, fun _ mem => absurd mem (Set.notMem_empty _), .inl rfl⟩

theorem insert (least_seen : LeastSeen initial seen least) (value : K) :
    LeastSeen initial (Set.insert value seen) (if value < least then value else least) := by
  split
  · next less =>
    refine ⟨less.le.trans least_seen.le_initial, ?_, .inr (.inl rfl)⟩
    rintro other (rfl | mem)
    · exact le_rfl
    · exact less.le.trans (least_seen.le_seen other mem)
  · next least_le =>
    refine ⟨least_seen.le_initial, ?_, least_seen.attained.imp_right .inr⟩
    rintro other (rfl | mem)
    · exact not_lt.1 least_le
    · exact least_seen.le_seen other mem

/-- The least value seen is the least of all exactly when that one was seen, or is the initial one. -/
theorem isLeast_iff (least_seen : LeastSeen initial seen least) (sub : seen ⊆ all) :
    IsLeast all least ↔ ∃ value, IsLeast all value ∧ (value = initial ∨ value < initial ∧ value ∈ seen) := by
  constructor
  · intro isLeast
    refine ⟨least, isLeast, ?_⟩
    rcases least_seen.le_initial.eq_or_lt with eq | lt
    · exact .inl eq
    · exact .inr ⟨lt, least_seen.attained.resolve_left lt.ne⟩
  · rintro ⟨value, isLeast, found⟩
    have least_le : least ≤ value := by
      rcases found with rfl | ⟨-, mem⟩
      · exact least_seen.le_initial
      · exact least_seen.le_seen value mem
    have le_least : value ≤ least := by
      rcases least_seen.attained with eq | mem
      · rcases found with rfl | ⟨lt, -⟩
        · exact eq.ge
        · exact eq ▸ lt.le
      · exact isLeast.2 (sub mem)
    exact le_antisymm least_le le_least ▸ isLeast

end LeastSeen

end GTPower
