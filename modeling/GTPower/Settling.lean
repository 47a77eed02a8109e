import Mathlib.Order.WellFounded

/-! Values of places that are computed from the values of the places before them, and how they are brought up to date
from a set of places that are due. -/
namespace GTPower.Settling

/-- `feeds u v` is that the value of `v` may be computed from that of `u`. A search begins at some places, and those
that it never reaches have the empty value. -/
structure System (V A : Type*) where
  feeds : V → V → Prop
  value : (V → A) → V → A
  begins : V → Prop
  empty : A
  congr : ∀ {arr arr' : V → A} {v : V}, (∀ u, feeds u v → arr u = arr' u) → value arr v = value arr' v

variable {V A : Type*}

namespace System

def Settled (sys : System V A) (arr : V → A) : Prop := ∀ v, arr v = sys.value arr v

inductive Reached (sys : System V A) : V → Prop
  | own {v : V} (begins : sys.begins v) : Reached sys v
  | step {u v : V} (before : Reached sys u) (feeds : sys.feeds u v) : Reached sys v

/-- Places that a search does not reach have no value of their own. -/
def Quiet (sys : System V A) : Prop := ∀ v, ¬sys.Reached v → sys.value (fun _ => sys.empty) v = sys.empty

theorem Settled.unique {sys : System V A} (wellFounded : WellFounded sys.feeds) {arr arr' : V → A}
    (settled : sys.Settled arr) (settled' : sys.Settled arr') (v : V) : arr v = arr' v := by
  induction v using wellFounded.induction with
  | _ v ih => exact (settled v).trans ((sys.congr ih).trans (settled' v).symm)

end System

/-- While values are brought up to date: `done` are the places that a search came to, whose values are right unless they
are due again. -/
structure Tracked (sys : System V A) (arr : V → A) (due done : V → Prop) : Prop where
  settled : ∀ v, done v → ¬due v → arr v = sys.value arr v
  onward : ∀ u v, done u → sys.feeds u v → done v ∨ due v
  untouched : ∀ v, ¬done v → arr v = sys.empty
  begun : ∀ v, sys.begins v → done v ∨ due v

namespace Tracked

variable {sys sys' : System V A} {arr arr' : V → A} {due due' done : V → Prop}

theorem start (empty : ∀ v, arr v = sys.empty) (begun : ∀ v, sys.begins v → due v) :
    Tracked sys arr due fun _ => False where
  settled _ absurd := absurd.elim
  onward _ _ absurd := absurd.elim
  untouched v _ := empty v
  begun v begins := Or.inr (begun v begins)

theorem mono (tracked : Tracked sys arr due done) (less : ∀ v, due v → due' v) : Tracked sys arr due' done where
  settled v here fresh := tracked.settled v here fun isDue => fresh (less v isDue)
  onward u v here feeds := (tracked.onward u v here feeds).imp_right (less v)
  untouched := tracked.untouched
  begun v begins := (tracked.begun v begins).imp_right (less v)

theorem visit {v : V} (tracked : Tracked sys arr due done) (others : ∀ u, u ≠ v → arr' u = arr u)
    (value : arr' v = sys.value arr v) (less : ∀ u, due u → u ≠ v → due' u) (next : ∀ w, sys.feeds v w → due' w) :
    Tracked sys arr' due' fun u => done u ∨ u = v where
  settled u here fresh := by
    have old : ∀ w, sys.feeds w u → w ≠ v := by
      rintro w feeds rfl
      exact fresh (next u feeds)
    have same : sys.value arr u = sys.value arr' u := sys.congr fun w feeds => by
      rw [others w (old w feeds)]
    by_cases isV : u = v
    · subst isV
      exact value.trans same
    · rw [others u isV]
      have before := tracked.settled u (here.resolve_right isV) fun isDue => fresh (less u isDue isV)
      exact before.trans same
  onward u w here feeds := by
    rcases here with here | rfl
    · by_cases isV : w = v
      · exact Or.inl (Or.inr isV)
      · exact (tracked.onward u w here feeds).imp Or.inl fun isDue => less w isDue isV
    · exact Or.inr (next w feeds)
  untouched u away := by
    obtain ⟨away, isV⟩ := not_or.mp away
    rw [others u isV]
    exact tracked.untouched u away
  begun u begins := by
    by_cases isV : u = v
    · exact Or.inl (Or.inr isV)
    · exact (tracked.begun u begins).imp Or.inl fun isDue => less u isDue isV

/-- A place that has its value already need not be due any more: one that the search came to, or one where it neither
begins nor comes. -/
theorem rest {v : V} (tracked : Tracked sys arr due done) (value : arr v = sys.value arr v)
    (known : done v ∨ ¬sys.begins v ∧ ∀ u, ¬sys.feeds u v) (less : ∀ u, due u → u ≠ v → due' u) :
    Tracked sys arr due' done where
  settled u here fresh := by
    by_cases isV : u = v
    · exact isV ▸ value
    · exact tracked.settled u here fun isDue => fresh (less u isDue isV)
  onward u w here feeds := by
    by_cases isV : w = v
    · subst isV
      rcases known with known | ⟨_, none⟩
      · exact Or.inl known
      · exact absurd feeds (none u)
    · exact (tracked.onward u w here feeds).imp_right fun isDue => less w isDue isV
  untouched := tracked.untouched
  begun u begins := by
    by_cases isV : u = v
    · subst isV
      rcases known with known | ⟨none, _⟩
      · exact Or.inl known
      · exact absurd begins none
    · exact (tracked.begun u begins).imp_right fun isDue => less u isDue isV

theorem change (tracked : Tracked sys arr due done) (less : ∀ v, due v → due' v) (empty : sys'.empty = sys.empty)
    (told : ∀ v, due' v ∨ (sys'.value arr v = sys.value arr v) ∧ (∀ u, sys'.feeds u v → sys.feeds u v) ∧
      (sys'.begins v → sys.begins v)) : Tracked sys' arr due' done where
  settled v here fresh := by
    have same := (told v).resolve_left fresh
    exact (tracked.settled v here fun isDue => fresh (less v isDue)).trans same.1.symm
  onward u v here feeds := by
    rcases told v with isDue | same
    · exact Or.inr isDue
    · exact (tracked.onward u v here (same.2.1 u feeds)).imp_right (less v)
  untouched v away := (tracked.untouched v away).trans empty.symm
  begun v begins := by
    rcases told v with isDue | same
    · exact Or.inr isDue
    · exact (tracked.begun v (same.2.2 begins)).imp_right (less v)

theorem finish (tracked : Tracked sys arr due done) (none : ∀ v, ¬due v) (quiet : sys.Quiet) : sys.Settled arr := by
  have closed : ∀ u v, done u → sys.feeds u v → done v :=
    fun u v here feeds => (tracked.onward u v here feeds).resolve_right (none v)
  have reached : ∀ v, sys.Reached v → done v := by
    intro v reached
    induction reached with
    | own begins => exact (tracked.begun _ begins).resolve_right (none _)
    | step _ feeds ih => exact closed _ _ ih feeds
  intro v
  by_cases here : done v
  · exact tracked.settled v here (none v)
  · have outside : ∀ u, sys.feeds u v → arr u = sys.empty := fun u feeds =>
      tracked.untouched u fun before => here (closed u v before feeds)
    have value : sys.value arr v = sys.value (fun _ => sys.empty) v := sys.congr outside
    have bare := quiet v fun isReached => here (reached v isReached)
    exact (tracked.untouched v here).trans (value.trans bare).symm

end Tracked

end GTPower.Settling
