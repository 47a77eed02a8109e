import Mathlib.Data.Set.Basic
import Mathlib.Tactic.Linarith
import GTPower.ArrivalSearch
import GTPower.Settling

/-! Whatever was edited and searched before, a search to the highest level finds the arrivals of a search from the
beginning: those that are worst at each vertex among the ones that come in, under those that originate there. -/

namespace GTPower.ArrivalSearch
open KeyedTables (Keyed)

variable {V E A T : Type*}

section Tables
variable [DecidableEq T] {map entries : ArrivalMap T} {entry : T × ℚ}

theorem keyed_setArrivals (keyed : Keyed id map) (entries : ArrivalMap T) : Keyed id (setArrivals map entries) := by
  induction entries generalizing map with
  | nil => exact keyed
  | cons entry rest ih => exact ih (keyed.offer entry.1 entry.2)

theorem setArrivals_append (map first second : ArrivalMap T) :
    setArrivals map (first ++ second) = setArrivals (setArrivals map first) second := List.foldl_append

theorem mem_setArrival (keyed : Keyed id map) (other : T × ℚ) :
    entry ∈ setArrival map other ↔ entry ∈ map ∧ entry.1 ≠ other.1 ∨ entry = other := by
  rw [setArrival,keyed.mem_offer]
  simp [KeyedTables.Accepts]

/-- Arrivals that are set come over those that were there. -/
theorem mem_setArrivals (keyed : Keyed id map) (entries : ArrivalMap T) :
    entry ∈ setArrivals map entries ↔ (entry ∈ map ∧ ∀ other ∈ entries, other.1 ≠ entry.1) ∨
    entry ∈ setArrivals [] entries := by
  induction entries generalizing map with
  | nil => simp [setArrivals]
  | cons other rest ih =>
    have first : Keyed id (setArrival ([] : ArrivalMap T) other) := Keyed.nil.offer other.1 other.2
    have inner : entry ∈ setArrivals (setArrival [] other) rest ↔
        (entry ∈ setArrival [] other ∧ ∀ later ∈ rest, later.1 ≠ entry.1) ∨ entry ∈ setArrivals [] rest := ih first
    show entry ∈ setArrivals (setArrival map other) rest ↔ _ ∨ entry ∈ setArrivals (setArrival [] other) rest
    have second : Keyed id (setArrival map other) := keyed.offer other.1 other.2
    rw [ih second,inner,mem_setArrival keyed,mem_setArrival Keyed.nil,List.forall_mem_cons]
    constructor
    · rintro (⟨⟨inside, apart⟩ | rfl, none⟩ | later)
      · exact Or.inl ⟨inside, apart.symm, none⟩
      · exact Or.inr (Or.inl ⟨Or.inr rfl, none⟩)
      · exact Or.inr (Or.inr later)
    · rintro (⟨inside, apart, none⟩ | ⟨⟨absurd, _⟩ | rfl, none⟩ | later)
      · exact Or.inl ⟨Or.inl ⟨inside, Ne.symm apart⟩, none⟩
      · cases absurd
      · exact Or.inl ⟨Or.inr rfl, none⟩
      · exact Or.inr later

/-- Two maps that do not count as changed have the same arrivals, where the tolerance tells them apart. -/
theorem mem_iff_of_not_changed {arrivals1 arrivals2 : ArrivalMap T} (keyed : Keyed id arrivals1)
    (apart : ∀ entry ∈ arrivals1, ∀ other ∈ arrivals2, entry.1 = other.1 → delayEqual entry.2 other.2 = true →
      entry.2 = other.2) (same : arrivalsChanged arrivals1 arrivals2 = false) :
    arrivals1 ≠ [] ∧ ∀ entry, entry ∈ arrivals1 ↔
    entry ∈ arrivals2 := by
  simp only [arrivalsChanged,Bool.or_eq_false_iff,decide_eq_false_iff_not,not_not,List.isEmpty_eq_false_iff,
    List.any_eq_false,
    Bool.not_eq_true',Bool.not_eq_false,Option.any_eq_true] at same
  obtain ⟨⟨nonempty, length⟩, found⟩ := same
  have sub : ∀ entry ∈ arrivals1, entry ∈ arrivals2 := by
    intro entry mem
    obtain ⟨other, isFound, equal⟩ := found entry mem
    obtain ⟨mem', tag⟩ := KeyedTables.find?_some isFound
    have tag : other.1 = entry.1 := tag
    have isEntry : entry = other := Prod.ext tag.symm (apart entry mem other mem' tag.symm equal)
    exact isEntry ▸ mem'
  have nodup : arrivals1.Nodup := keyed.imp fun differ same => differ (congrArg Prod.fst same)
  have perm := (List.subperm_of_subset nodup sub).perm_of_length_le length.ge
  exact ⟨nonempty, fun entry => perm.mem_iff⟩

end Tables

namespace Timing
variable (timing : Timing V E A T)

/-! What the arrivals are for: of those that come in the worst of each tag, under those that originate at the vertex. -/
section Values
variable [DecidableEq T]

def Usable (e : E) : Prop :=
  timing.searchFrom (timing.fromVertex e) = true ∧ timing.edgeEnabled e = true ∧
    timing.searchTo (timing.toVertex e) = true

instance (e : E) : Decidable (timing.Usable e) := inferInstanceAs (Decidable (_ ∧ _ ∧ _))

def faninArrivals (arr : V → Set (T × ℚ)) (v : V) : Set (T × ℚ) :=
  {entry | ∃ e ∈ timing.inEdges v, timing.Usable e ∧ ∃ before ∈ arr (timing.fromVertex e),
    ∃ arc ∈ timing.arcsFrom e before.1,
    timing.visitFromPath e arc before = some entry}

def worst (offers : Set (T × ℚ)) : Set (T × ℚ) :=
  {entry ∈ offers | ∀ other ∈ offers, other.1 = entry.1 →
    MinMax.exactDelayGreater other.2 entry.2 (timing.minMax entry.1) = false}

/-- Arrivals that originate at a vertex hide those that come in with their tags. -/
def covered (offers : Set (T × ℚ)) (own : ArrivalMap T) : Set (T × ℚ) :=
  {entry | (entry ∈ offers ∧ ∀ other ∈ own, other.1 ≠ entry.1) ∨ entry ∈ setArrivals [] own}

open Classical in
/-- The arrivals that a visit is to find. -/
noncomputable def visitValue (arr : V → Set (T × ℚ)) (v : V) : Set (T × ℚ) :=
  let reached := covered (timing.worst (timing.faninArrivals arr v)) (timing.ownArrivals v)
  if timing.isRegClk v = true ∧ ¬∃ clk ∈ reached, timing.isClock clk.1 = true then
    covered reached (timing.unclkedPaths v true false)
  else reached

end Values

section Fidelity
variable [DecidableEq T] {timing} {arrivals : V → ArrivalMap T} {v : V}

def entries (arrivals : V → ArrivalMap T) (v : V) : Set (T × ℚ) := {entry | entry ∈ arrivals v}

omit [DecidableEq T] in
theorem entries_eq {map : ArrivalMap T} (same : arrivals v = map) : entries arrivals v = {entry | entry ∈ map} := by
  rw [entries,same]

theorem exactDelayGreater_trans {first second third : ℚ} {minMax : MinMax}
    (one : MinMax.exactDelayGreater first second minMax = true)
    (two : MinMax.exactDelayGreater third second minMax = false) :
    MinMax.exactDelayGreater third first minMax = false := by
  cases minMax <;>
    simp only [MinMax.exactDelayGreater,decide_eq_true_eq,decide_eq_false_iff_not,not_lt] at one two ⊢ <;> linarith

theorem exactDelayGreater_total {first second : ℚ} {minMax : MinMax}
    (one : MinMax.exactDelayGreater first second minMax = false) :
    MinMax.exactDelayGreater second first minMax = true ∨ first = second := by
  cases minMax with
  | max => simpa [MinMax.exactDelayGreater] using lt_or_eq_of_le (not_lt.mp (of_decide_eq_false one))
  | min => simpa [MinMax.exactDelayGreater,eq_comm] using lt_or_eq_of_le (not_lt.mp (of_decide_eq_false one))

theorem exactDelayGreater_self (delay : ℚ) (minMax : MinMax) : MinMax.exactDelayGreater delay delay minMax = false := by
  cases minMax <;> simp [MinMax.exactDelayGreater]

theorem keyed_visitFromToPaths (timing : Timing V E A T) (offers : List (T × ℚ)) :
    Keyed id (offers.foldl timing.visitFromToPath []) :=
  List.foldlRecOn (motive := Keyed id) offers _ Keyed.nil fun _ keyed offer _ => keyed.offer offer.1 offer.2

theorem mem_offers {offers : List (T × ℚ)} {entry : T × ℚ} (mem : entry ∈ offers.foldl timing.visitFromToPath []) :
    entry ∈ offers := by
  induction offers using List.reverseRecOn with
  | nil => cases mem
  | append_singleton offers last ih =>
    rw [List.foldl_append,List.foldl_cons,List.foldl_nil] at mem
    rcases (keyed_visitFromToPaths timing offers).mem_offer.mp mem with ⟨before, _⟩ | ⟨isLast, _⟩
    · exact List.mem_append_left _ (ih before)
    · exact List.mem_append_right _ (List.mem_singleton.mpr isLast)

/-- The tolerance tells offers of a tag apart. -/
def Apart (offers : Set (T × ℚ)) : Prop :=
  ∀ offer ∈ offers, ∀ other ∈ offers, offer.1 = other.1 → delayEqual offer.2 other.2 = true → offer.2 = other.2

theorem exists_visitFromToPaths (timing : Timing V E A T) {offers : List (T × ℚ)}
    (apart : Apart {offer | offer ∈ offers}) {offer : T × ℚ}
    (mem : offer ∈ offers) : ∃ entry ∈ offers.foldl timing.visitFromToPath [], entry.1 = offer.1 ∧
      MinMax.exactDelayGreater offer.2 entry.2 (timing.minMax offer.1) = false := by
  induction offers using List.reverseRecOn with
  | nil => cases mem
  | append_singleton offers last ih =>
    have keyed := keyed_visitFromToPaths timing offers
    have apart' : Apart {offer | offer ∈ offers} := fun offer mem other mem' =>
      apart offer (List.mem_append_left _ mem) other (List.mem_append_left _ mem')
    have isLast : last ∈ offers ++ [last] := List.mem_append_right _ (List.mem_singleton_self last)
    let better := fun arrival other => MinMax.delayGreater arrival other (timing.minMax last.1)
    -- The tolerance makes no difference between the last offer and one that is recorded.
    have exact : ∀ entry ∈ offers ++ [last], entry.1 = last.1 →
        better last.2 entry.2 = MinMax.exactDelayGreater last.2 entry.2 (timing.minMax last.1) := fun entry mem tag =>
      MinMax.delayGreater_eq_exact (apart last isLast entry mem tag.symm) _
    rw [List.foldl_append,List.foldl_cons,List.foldl_nil]
    rcases List.mem_append.mp mem with before | here
    · obtain ⟨entry, inside, same, worse⟩ := ih apart' before
      rcases keyed.offer_cases better last.1 last.2 inside with stays | ⟨⟨tag, beats⟩, comes⟩
      · exact ⟨entry, stays, same, worse⟩
      · have tag : entry.1 = last.1 := tag
        rw [exact entry (List.mem_append_left _ (mem_offers inside)) tag] at beats
        have tag' : timing.minMax last.1 = timing.minMax offer.1 := by rw [← tag,same]
        have beats : MinMax.exactDelayGreater last.2 entry.2 (timing.minMax offer.1) = true := tag' ▸ beats
        exact ⟨last, comes, tag.symm.trans same, exactDelayGreater_trans beats worse⟩
    · rw [List.mem_singleton.mp here]
      have self : ¬better last.2 last.2 = true := by
        rw [exact last isLast rfl,exactDelayGreater_self]
        exact Bool.false_ne_true
      have met : ∃ entry ∈ KeyedTables.offer id better (offers.foldl timing.visitFromToPath []) last.1 last.2,
          id entry.1 = id last.1 ∧ ¬better last.2 entry.2 = true := keyed.exists_offer last.1 self
      obtain ⟨entry, inside, same, worse⟩ := met
      have offered : entry ∈ offers ++ [last] := by
        rcases keyed.mem_offer.mp inside with ⟨before, _⟩ | ⟨isLast, _⟩
        · exact List.mem_append_left _ (mem_offers before)
        · exact List.mem_append_right _ (List.mem_singleton.mpr isLast)
      rw [exact entry offered same] at worse
      exact ⟨entry, inside, same, Bool.eq_false_iff.mpr worse⟩

theorem mem_visitFromToPaths {offers : List (T × ℚ)} (apart : Apart {offer | offer ∈ offers}) (entry : T × ℚ) :
    entry ∈ offers.foldl timing.visitFromToPath [] ↔ entry ∈ timing.worst {offer | offer ∈ offers} := by
  constructor
  · intro mem
    refine ⟨mem_offers mem, fun other mem' same => ?_⟩
    obtain ⟨found, mem'', tag, worse⟩ := exists_visitFromToPaths timing apart mem'
    have isEntry : found = entry := (keyed_visitFromToPaths timing offers).eq mem'' mem (tag.trans same)
    rwa [isEntry,same] at worse
  · rintro ⟨mem, worst⟩
    obtain ⟨found, inside, tag, worse⟩ := exists_visitFromToPaths timing apart mem
    rcases exactDelayGreater_total (worst found (mem_offers inside) tag) with greater | same
    · rw [worse] at greater
      cases greater
    · have isEntry : found = entry := Prod.ext tag same
      exact isEntry ▸ inside

/-- The in edges of a vertex end there and are out edges of where they start. -/
structure Linked (timing : Timing V E A T) : Prop where
  into : ∀ v, ∀ e ∈ timing.inEdges v, timing.toVertex e = v ∧ e ∈ timing.outEdges (timing.fromVertex e)
  out : ∀ u, ∀ e ∈ timing.outEdges u, timing.fromVertex e = u ∧ e ∈ timing.inEdges (timing.toVertex e)

omit [DecidableEq T] in
theorem mem_faninPaths (linked : Linked timing) (entry : T × ℚ) :
    entry ∈ timing.faninPaths arrivals v ↔ entry ∈ timing.faninArrivals (entries arrivals) v := by
  have usable : ∀ e ∈ timing.inEdges v, timing.Usable e ↔
      timing.searchTo v = true ∧ timing.searchFrom (timing.fromVertex e) = true ∧ timing.edgeEnabled e = true := by
    intro e into
    rw [Usable,(linked.into v e into).1]
    tauto
  have offered : ∀ e, entry ∈ timing.visitEdge arrivals e ↔ ∃ before ∈ entries arrivals (timing.fromVertex e),
      ∃ arc ∈ timing.arcsFrom e before.1, timing.visitFromPath e arc before = some entry := by
    intro e
    simp only [visitEdge,List.mem_flatMap,List.mem_filterMap]
    rfl
  unfold faninPaths
  split
  · next searchTo =>
    simp only [List.mem_flatMap,List.mem_filter,Bool.and_eq_true,offered]
    constructor
    · rintro ⟨e, ⟨into, enabled⟩, holds⟩
      exact ⟨e, into, (usable e into).mpr ⟨searchTo, enabled⟩, holds⟩
    · rintro ⟨e, into, isUsable, holds⟩
      exact ⟨e, ⟨into, ((usable e into).mp isUsable).2⟩, holds⟩
  · next closed =>
    constructor
    · intro mem
      cases mem
    · rintro ⟨e, into, isUsable, _⟩
      exact absurd ((usable e into).mp isUsable).1 closed

theorem mem_covered {map own : ArrivalMap T} {offers : Set (T × ℚ)} (keyed : Keyed id map)
    (same : ∀ entry, entry ∈ map ↔ entry ∈ offers) (entry : T × ℚ) :
    entry ∈ setArrivals map own ↔ entry ∈ covered offers own := by
  rw [mem_setArrivals keyed,same]
  rfl

/-- The arrivals that the vertices may have, which the tolerance tells apart. -/
structure Spaced (V T : Type*) where
  arrivals : V → Set (T × ℚ)
  apart : ∀ v, Apart (arrivals v)

def Spaced.Fits (spaced : Spaced V T) (v : V) (map : ArrivalMap T) : Prop := Keyed id map ∧
    {entry | entry ∈ map} ⊆ spaced.arrivals v

/-- A design begins with such arrivals and leads from them to such arrivals. -/
structure Within (timing : Timing V E A T) (spaced : Spaced V T) : Prop where
  seeds : ∀ v, {entry | entry ∈ timing.seedMap v} ⊆ spaced.arrivals v
  own : ∀ v, {entry | entry ∈ timing.ownArrivals v ++ timing.unclkedPaths v true false} ⊆ spaced.arrivals v
  fanin : ∀ v, timing.faninArrivals spaced.arrivals v ⊆ spaced.arrivals v

variable {spaced : Spaced V T}

theorem Within.faninArrivals (within : timing.Within spaced) (fits : ∀ u, spaced.Fits u (arrivals u)) (v : V) :
    timing.faninArrivals (entries arrivals) v ⊆ spaced.arrivals v := by
  rintro entry ⟨e, into, usable, before, mem, offered⟩
  exact within.fanin v ⟨e, into, usable, before, (fits _).2 mem, offered⟩

theorem Within.apart (within : timing.Within spaced) (linked : Linked timing) (fits : ∀ u, spaced.Fits u (arrivals u))
    (v : V) :
    Apart {offer | offer ∈ timing.faninPaths arrivals v} := by
  have inside : ∀ offer ∈ timing.faninPaths arrivals v, offer ∈ spaced.arrivals v := fun offer mem =>
    within.faninArrivals fits v ((mem_faninPaths linked offer).mp mem)
  exact fun offer mem other mem' => spaced.apart v offer (inside offer mem) other (inside other mem')

theorem fits_setArrivals {map : ArrivalMap T} (fits : spaced.Fits v map) {own : ArrivalMap T}
    (within : {entry | entry ∈ own} ⊆ spaced.arrivals v) : spaced.Fits v (setArrivals map own) := by
  induction own generalizing map with
  | nil => exact fits
  | cons entry rest ih =>
    have next : spaced.Fits v (setArrival map entry) := by
      refine ⟨fits.1.offer entry.1 entry.2, fun other mem => ?_⟩
      rcases (mem_setArrival fits.1 entry).mp mem with ⟨before, _⟩ | rfl
      · exact fits.2 before
      · exact within List.mem_cons_self
    exact ih next fun other mem => within (List.mem_cons_of_mem _ mem)

theorem fits_visit (within : timing.Within spaced) (linked : Linked timing) (fits : ∀ u, spaced.Fits u (arrivals u))
    (v : V) :
    spaced.Fits v (timing.visit arrivals v) := by
  have reached : spaced.Fits v ((timing.faninPaths arrivals v).foldl timing.visitFromToPath []) :=
    ⟨keyed_visitFromToPaths _ _, fun entry mem =>
      within.faninArrivals fits v ((mem_faninPaths linked entry).mp (mem_offers mem))⟩
  have own := fits_setArrivals reached fun entry mem => within.own v (List.mem_append_left _ mem)
  unfold visit
  dsimp only
  split
  · exact fits_setArrivals own fun entry mem => within.own v (List.mem_append_right _ mem)
  · exact own

theorem entries_visit (linked : Linked timing) (within : timing.Within spaced) (fits : ∀ u, spaced.Fits u (arrivals u))
    (v : V) :
    {entry | entry ∈ timing.visit arrivals v} = timing.visitValue (entries arrivals) v := by
  have keyed := keyed_visitFromToPaths timing (timing.faninPaths arrivals v)
  have apart := within.apart linked fits v
  have offers : {offer | offer ∈ timing.faninPaths arrivals v} = timing.faninArrivals (entries arrivals) v :=
    Set.ext fun entry => mem_faninPaths linked entry
  have reached : ∀ entry, entry ∈ setArrivals ((timing.faninPaths arrivals v).foldl timing.visitFromToPath [])
    (timing.ownArrivals v) ↔
      entry ∈ covered (timing.worst (timing.faninArrivals (entries arrivals) v)) (timing.ownArrivals v) := by
    intro entry
    rw [← offers]
    exact mem_covered keyed (mem_visitFromToPaths apart) entry
  have clocked : timing.hasClkTag (setArrivals ((timing.faninPaths arrivals v).foldl timing.visitFromToPath [])
    (timing.ownArrivals v)) = true ↔
      ∃ clk ∈ covered (timing.worst (timing.faninArrivals (entries arrivals) v)) (timing.ownArrivals v),
        timing.isClock clk.1 = true := by
    simp only [hasClkTag,List.any_eq_true,reached]
  ext entry
  unfold visit visitValue
  dsimp only
  by_cases unclked : timing.isRegClk v = true ∧
    ¬∃ clk ∈ covered (timing.worst (timing.faninArrivals (entries arrivals) v)) (timing.ownArrivals v),
      timing.isClock clk.1 = true
  · have here := unclked
    rw [← clocked] at here
    rw [if_pos unclked,if_pos (by simp [here.1, here.2])]
    exact mem_covered (keyed_setArrivals keyed _) reached entry
  · have here := unclked
    rw [← clocked] at here
    rw [if_neg unclked,if_neg (by simpa using here)]
    exact reached entry

end Fidelity

section System
variable (timing : Timing V E A T)

/-- The search comes to a vertex from another one. -/
def Feeds (u v : V) : Prop := timing.isStart v = false ∧ ∃ e ∈ timing.inEdges v, timing.Usable e ∧
    timing.fromVertex e = u

theorem faninArrivals_congr {arr arr' : V → Set (T × ℚ)} {v : V} (notStart : timing.isStart v = false)
    (same : ∀ u, timing.Feeds u v → arr u = arr' u) : timing.faninArrivals arr v = timing.faninArrivals arr' v := by
  have sameAt : ∀ e ∈ timing.inEdges v, timing.Usable e → arr (timing.fromVertex e) = arr' (timing.fromVertex e) :=
    fun e into usable => same _ ⟨notStart, e, into, usable, rfl⟩
  ext entry
  constructor
  · rintro ⟨e, into, usable, before, mem, rest⟩
    exact ⟨e, into, usable, before, sameAt e into usable ▸ mem, rest⟩
  · rintro ⟨e, into, usable, before, mem, rest⟩
    exact ⟨e, into, usable, before, (sameAt e into usable).symm ▸ mem, rest⟩

variable [DecidableEq T]

noncomputable def value (arr : V → Set (T × ℚ)) (v : V) : Set (T × ℚ) :=
  if timing.isStart v then {entry | entry ∈ timing.seedMap v} else timing.visitValue arr v

/-- What a search is to find: the arrivals at each vertex follow from those of the vertices before it. -/
noncomputable def system : Settling.System V (Set (T × ℚ)) where
  feeds := timing.Feeds
  value := timing.value
  begins v := v ∈ timing.seedVertices ∧ timing.searchesOn v = true
  empty := ∅
  congr {arr arr' v} same := by
    unfold value
    split
    · rfl
    · next notStart =>
      unfold visitValue
      rw [faninArrivals_congr timing (Bool.eq_false_iff.mpr notStart) same]

/-- What a search may rely on: starts have no fanin, and levels rise. -/
structure Ready (spaced : Spaced V T) : Prop where
  linked : Linked timing
  alone : ∀ v, timing.isStart v = true → ∀ e ∈ timing.inEdges v, ¬timing.Usable e
  upward : ∀ v, ∀ e ∈ timing.inEdges v, timing.Usable e → timing.level (timing.fromVertex e) < timing.level v
  nonneg : ∀ v, 0 ≤ timing.level v
  within : timing.Within spaced

/-- The arrivals at a vertex follow in the same way. -/
def SameAt (timing' : Timing V E A T) (v : V) : Prop :=
  (∀ arr, timing'.system.value arr v = timing.system.value arr v) ∧
    (∀ u, timing'.system.feeds u v → timing.system.feeds u v) ∧
    (timing'.system.begins v → timing.system.begins v)

variable {timing} {u v w : V} {spaced : Spaced V T}

omit [DecidableEq T] in
theorem mem_adjacentVertices (linked : Linked timing) :
    w ∈ timing.adjacentVertices v ↔ ∃ e ∈ timing.inEdges w, timing.Usable e ∧ timing.fromVertex e = v := by
  unfold adjacentVertices
  constructor
  · intro mem
    split at mem
    · next searchFrom =>
      obtain ⟨e, inside, rfl⟩ := List.mem_map.mp mem
      obtain ⟨out, enabled⟩ := List.mem_filter.mp inside
      obtain ⟨source, into⟩ := linked.out v e out
      rw [Bool.and_eq_true] at enabled
      exact ⟨e, into, ⟨source ▸ searchFrom, enabled⟩, source⟩
    · cases mem
  · rintro ⟨e, into, ⟨searchFrom, enabled⟩, rfl⟩
    obtain ⟨target, out⟩ := linked.into w e into
    rw [if_pos searchFrom]
    refine List.mem_map.mpr ⟨e, List.mem_filter.mpr ⟨out, ?_⟩, target⟩
    rw [Bool.and_eq_true]
    exact enabled

theorem Ready.adjacent (ready : Ready timing spaced) (mem : w ∈ timing.adjacentVertices v) :
    timing.level v < timing.level w ∧ timing.isStart w = false := by
  obtain ⟨e, into, usable, rfl⟩ := (mem_adjacentVertices ready.linked).mp mem
  exact ⟨ready.upward w e into usable, Bool.eq_false_iff.mpr fun start => ready.alone w start e into usable⟩

theorem Ready.mem_adjacent (ready : Ready timing spaced) (feeds : timing.system.feeds v w) :
    w ∈ timing.adjacentVertices v :=
  (mem_adjacentVertices ready.linked).mpr feeds.2

theorem Ready.wellFounded (ready : Ready timing spaced) : WellFounded timing.system.feeds := by
  apply Subrelation.wf (r := InvImage (· < ·) fun v => (timing.level v).toNat) _ (InvImage.wf _ wellFounded_lt)
  rintro u v ⟨_, e, into, usable, rfl⟩
  have rise := ready.upward v e into usable
  have low := ready.nonneg (timing.fromVertex e)
  show (timing.level (timing.fromVertex e)).toNat < (timing.level v).toNat
  omega

theorem keyed_seedMap (timing : Timing V E A T) (v : V) : Keyed id (timing.seedMap v) := by
  have input {map : ArrivalMap T} (keyed : Keyed id map) : Keyed id (timing.seedInputArrival v map) := by
    unfold seedInputArrival
    split
    · exact keyed_setArrivals keyed _
    · split
      · exact keyed_setArrivals keyed _
      · exact keyed
  unfold seedMap
  split
  · exact input (keyed_setArrivals Keyed.nil _)
  · split
    · exact input Keyed.nil
    · split
      · exact keyed_setArrivals Keyed.nil _
      · exact Keyed.nil

theorem Ready.fits_seedMap (ready : Ready timing spaced) (v : V) : spaced.Fits v (timing.seedMap v) :=
  ⟨keyed_seedMap timing v, ready.within.seeds v⟩

theorem seedMap_eq_nil (silent : timing.searchesOn v = false) : timing.seedMap v = [] := by
  unfold searchesOn at silent
  split at silent
  · cases silent
  · next notClk =>
    split at silent
    · simpa using silent
    · next notInput =>
      split at silent
      · next unclked =>
        rw [seedMap,if_neg notClk,if_neg notInput,if_pos unclked]
        simp only [Bool.not_eq_false',List.isEmpty_iff] at silent
        rw [silent]
        rfl
      · cases silent

end System

end Timing

namespace Search
variable [DecidableEq V] [DecidableEq T] {s s' : Search V E A T} {spaced : Timing.Spaced V T}
open Timing

/-- What is still to be brought up to date. -/
def Due (s : Search V E A T) (left : List V) (v : V) : Prop := s.arrivalIter.inQueue v = true ∨ v ∈ left

/-- What holds while vertices are seeded; `left` are those that are still to be. -/
structure Seeding (spaced : Spaced V T) (s : Search V E A T) (left : List V) : Prop where
  sound : Bfs.Sound s.timing.level s.arrivalIter
  notStart : ∀ v, s.arrivalIter.inQueue v = true → s.timing.isStart v = false
  fits : ∀ v, spaced.Fits v (s.arrivals v)
  silent : ∀ v ∈ left, s.timing.isStart v = true → s.timing.searchesOn v = true ∨ s.arrivals v = []
  tracked : ∃ done, Settling.Tracked s.timing.system (entries s.arrivals) (Due s left) done

section Seeds
variable {left : List V} {v : V}

omit [DecidableEq T] in
theorem inQueue_enqueueAdjacent (s : Search V E A T) (v u : V) :
    (s.enqueueAdjacentVertices v).arrivalIter.inQueue u = true ↔ s.arrivalIter.inQueue u = true ∨
    u ∈ s.timing.adjacentVertices v := by
  rw [enqueueAdjacentVertices,Bfs.inQueue_enqueueAll,Bool.or_eq_true,decide_eq_true_iff]

omit [DecidableEq T] in
theorem fits_setVertexArrivals (fits : ∀ v, spaced.Fits v (s.arrivals v)) (v : V) {map : ArrivalMap T}
    (new : spaced.Fits v map) :
    ∀ u, spaced.Fits u ((s.setVertexArrivals v map).arrivals u) := by
  intro u
  simp only [setVertexArrivals]
  split
  · next here => exact here ▸ new
  · exact fits u

theorem Seeding.start (ready : s.timing.Ready spaced) (seeding : Seeding spaced s (v :: left))
    (isStart : s.timing.isStart v = true) (on : s.timing.searchesOn v = true) :
    Seeding spaced ((s.setVertexArrivals v (s.timing.seedMap v)).enqueueAdjacentVertices v) left := by
  obtain ⟨done, tracked⟩ := seeding.tracked
  have waits := inQueue_enqueueAdjacent (s.setVertexArrivals v (s.timing.seedMap v)) v
  refine ⟨seeding.sound.enqueueAll _, fun u mem => ?_, fits_setVertexArrivals seeding.fits v (ready.fits_seedMap v),
    fun u mem start => ?_,
    _, tracked.visit (v := v) ?_ ?_ ?_ ?_⟩
  · rcases (waits u).mp mem with before | adjacent
    · exact seeding.notStart u before
    · exact (ready.adjacent adjacent).2
  · by_cases same : u = v
    · exact Or.inl (same ▸ on)
    · refine (seeding.silent u (List.mem_cons_of_mem _ mem) start).imp_right fun nothing => ?_
      exact (if_neg same).trans nothing
  · exact fun u apart => entries_eq (if_neg apart)
  · exact (entries_eq (if_pos rfl)).trans (if_pos isStart).symm
  · rintro u (before | inLeft) apart
    · exact Or.inl ((waits u).mpr (Or.inl before))
    · exact Or.inr ((List.mem_cons.mp inLeft).resolve_left apart)
  · exact fun w feeds => Or.inl ((waits w).mpr (Or.inr (ready.mem_adjacent feeds)))

theorem Seeding.silentStart (ready : s.timing.Ready spaced) (seeding : Seeding spaced s (v :: left))
    (isStart : s.timing.isStart v = true)
    (off : s.timing.searchesOn v = false) : Seeding spaced (s.setVertexArrivals v (s.timing.seedMap v)) left := by
  obtain ⟨done, tracked⟩ := seeding.tracked
  have nothing := seedMap_eq_nil off
  have before : s.arrivals v = [] := (seeding.silent v List.mem_cons_self isStart).resolve_left (by simp [off])
  have same : (s.setVertexArrivals v (s.timing.seedMap v)).arrivals = s.arrivals := by
    funext u
    simp only [setVertexArrivals]
    split
    · next here => rw [here,before,nothing]
    · rfl
  refine ⟨seeding.sound, seeding.notStart, fits_setVertexArrivals seeding.fits v (ready.fits_seedMap v),
    fun u mem start => ?_, done, ?_⟩
  · rw [same]
    exact seeding.silent u (List.mem_cons_of_mem _ mem) start
  · rw [same]
    apply tracked.rest (v := v)
    · have isSeed : s.timing.system.value (entries s.arrivals) v = {entry | entry ∈ s.timing.seedMap v} :=
        if_pos isStart
      rw [isSeed,entries,before,nothing]
    · refine Or.inr ⟨fun begins => ?_, fun u feeds => ?_⟩
      · rw [begins.2] at off
        cases off
      · rw [feeds.1] at isStart
        cases isStart
    · rintro u (before | inLeft) apart
      · exact Or.inl before
      · exact Or.inr ((List.mem_cons.mp inLeft).resolve_left apart)

theorem Seeding.seedArrival (ready : s.timing.Ready spaced) (seeding : Seeding spaced s (v :: left)) :
    Seeding spaced (s.seedArrival v) left ∧ (s.seedArrival v).timing = s.timing := by
  unfold Search.seedArrival
  split
  · next isStart =>
    dsimp only
    split
    · next on => exact ⟨seeding.start ready isStart on, rfl⟩
    · next off => exact ⟨seeding.silentStart ready isStart (Bool.eq_false_iff.mpr off), rfl⟩
  · next notStart =>
    obtain ⟨done, tracked⟩ := seeding.tracked
    have waits (u : V) : (Bfs.enqueue s.timing.level s.arrivalIter v).inQueue u = true ↔
      s.arrivalIter.inQueue u = true ∨ u = v := by
      have one : (Bfs.enqueue s.timing.level s.arrivalIter v).inQueue u =
        (s.arrivalIter.inQueue u || decide (u ∈ [v])) :=
        Bfs.inQueue_enqueueAll [v] u
      rw [one]
      simp
    refine ⟨⟨seeding.sound.enqueue v, fun u mem => ?_, seeding.fits, fun u mem =>
      seeding.silent u (List.mem_cons_of_mem _ mem), done,
      tracked.mono ?_⟩, rfl⟩
    · rcases (waits u).mp mem with before | rfl
      · exact seeding.notStart u before
      · exact Bool.eq_false_iff.mpr notStart
    · rintro u (before | inLeft)
      · exact Or.inl ((waits u).mpr (Or.inl before))
      · rcases List.mem_cons.mp inLeft with rfl | later
        · exact Or.inl ((waits u).mpr (Or.inr rfl))
        · exact Or.inr later

theorem Seeding.seedAll (ready : s.timing.Ready spaced) {first : List V} (seeding : Seeding spaced s (first ++ left)) :
    Seeding spaced (first.foldl Search.seedArrival s) left ∧ (first.foldl Search.seedArrival s).timing = s.timing := by
  induction first generalizing s with
  | nil => exact ⟨seeding, rfl⟩
  | cons v rest ih =>
    obtain ⟨next, same⟩ := seeding.seedArrival ready
    obtain ⟨done, same'⟩ := ih (same ▸ ready) next
    exact ⟨done, same'.trans same⟩

theorem foldl_seedArrival_frame (s : Search V E A T) (vs : List V) :
    (vs.foldl Search.seedArrival s).timing = s.timing ∧
    (vs.foldl Search.seedArrival s).invalidArrivals = s.invalidArrivals ∧
      (vs.foldl Search.seedArrival s).arrivalsSeeded = s.arrivalsSeeded := by
  have one (s : Search V E A T) (v : V) : (s.seedArrival v).timing = s.timing ∧
      (s.seedArrival v).invalidArrivals = s.invalidArrivals ∧ (s.seedArrival v).arrivalsSeeded = s.arrivalsSeeded := by
    unfold Search.seedArrival
    split
    · dsimp only
      split <;> exact ⟨rfl, rfl, rfl⟩
    · exact ⟨rfl, rfl, rfl⟩
  induction vs generalizing s with
  | nil => exact ⟨rfl, rfl, rfl⟩
  | cons v rest ih =>
    obtain ⟨timing, invalid, seeded⟩ := ih (s.seedArrival v)
    obtain ⟨timing', invalid', seeded'⟩ := one s v
    exact ⟨timing.trans timing', invalid.trans invalid', seeded.trans seeded'⟩

end Seeds

/-- What holds between the calls. -/
structure Kept (spaced : Spaced V T) (s : Search V E A T) : Prop where
  sound : Bfs.Sound s.timing.level s.arrivalIter
  notStart : ∀ v, s.arrivalIter.inQueue v = true → s.timing.isStart v = false
  fits : ∀ v, spaced.Fits v (s.arrivals v)
  fresh : s.arrivalsExist = false → s.arrivalsSeeded = false ∧ s.invalidArrivals = [] ∧
    ∀ v, s.arrivalIter.inQueue v = false
  unseeded : s.arrivalsSeeded = false → ∀ v, s.arrivals v = []
  tracked : s.arrivalsSeeded = true →
    ∃ done, Settling.Tracked s.timing.system (entries s.arrivals) (Due s s.invalidArrivals) done

theorem kept_initial (timing : Timing V E A T) : Kept spaced (initial timing) where
  sound := ⟨fun l v => by simp [initial,Bfs.init], fun v waits => Bool.noConfusion waits, fun v waits =>
    Bool.noConfusion waits⟩
  notStart v waits := Bool.noConfusion waits
  fits _ := ⟨Keyed.nil, fun _ mem => nomatch mem⟩
  fresh _ := ⟨rfl, rfl, fun _ => rfl⟩
  unseeded _ _ := rfl
  tracked seeded := Bool.noConfusion seeded

/-- No announced start is to lose its arrivals: the search would not go on from there. -/
def Heard (s : Search V E A T) : Prop :=
  s.arrivalsSeeded = true → ∀ v ∈ s.invalidArrivals, s.timing.isStart v = true → s.timing.searchesOn v = true ∨
    s.arrivals v = []

section Searches

theorem Seeding.seedInvalidArrivals (ready : s.timing.Ready spaced) (seeding : Seeding spaced s s.invalidArrivals) :
    Seeding spaced s.seedInvalidArrivals [] ∧ s.seedInvalidArrivals.timing = s.timing ∧
      s.seedInvalidArrivals.arrivalsSeeded = s.arrivalsSeeded ∧ s.seedInvalidArrivals.invalidArrivals = [] := by
  rw [← List.append_nil s.invalidArrivals] at seeding
  obtain ⟨done, timing⟩ := seeding.seedAll ready
  obtain ⟨_, _, seeded⟩ := foldl_seedArrival_frame s s.invalidArrivals
  exact ⟨⟨done.sound, done.notStart, done.fits, done.silent, done.tracked⟩, timing, seeded, rfl⟩

theorem Kept.seedArrivals (ready : s.timing.Ready spaced) (kept : Kept spaced s) (unseeded : s.arrivalsSeeded = false) :
    let cleared : Search V E A T := { s with arrivalIter := Bfs.clear 0 levelMax s.arrivalIter }
    Seeding spaced cleared.seedArrivals s.invalidArrivals ∧ cleared.seedArrivals.timing = s.timing ∧
      cleared.seedArrivals.invalidArrivals = s.invalidArrivals := by
  intro cleared
  obtain ⟨sound, none⟩ := kept.sound.clear 0 levelMax s.timing.level
  have nothing := kept.unseeded unseeded
  have start : Seeding spaced cleared (s.timing.seedVertices ++ s.invalidArrivals) := by
    refine ⟨sound, fun v waits => ?_, kept.fits, fun v _ _ => Or.inr (nothing v), _, Settling.Tracked.start ?_ ?_⟩
    · have waits : (Bfs.clear 0 levelMax s.arrivalIter).inQueue v = true := waits
      rw [none v] at waits
      cases waits
    · intro v
      have isNil : entries s.arrivals v = {entry | entry ∈ ([] : ArrivalMap T)} := entries_eq (nothing v)
      exact isNil.trans (Set.eq_empty_iff_forall_notMem.mpr fun _ mem => nomatch mem)
    · exact fun v begins => Or.inr (List.mem_append_left _ begins.1)
  have readyCleared : cleared.timing.Ready spaced := ready
  obtain ⟨seeds, timing⟩ := start.seedAll readyCleared
  exact ⟨seeds, timing, (foldl_seedArrival_frame cleared s.timing.seedVertices).2.1⟩

/-- After the seeds the vertices in the queue are all that is due. -/
theorem Kept.findArrivalsSeed (ready : s.timing.Ready spaced) (kept : Kept spaced s) (heard : Heard s) :
    Seeding spaced s.findArrivalsSeed [] ∧ s.findArrivalsSeed.timing = s.timing ∧
    s.findArrivalsSeed.arrivalsSeeded = true ∧
      s.findArrivalsSeed.invalidArrivals = [] := by
  unfold Search.findArrivalsSeed
  split
  · next seeded =>
    have start : Seeding spaced s s.invalidArrivals :=
      ⟨kept.sound, kept.notStart, kept.fits, heard seeded, kept.tracked seeded⟩
    obtain ⟨done, timing, isSeeded, none⟩ := start.seedInvalidArrivals ready
    exact ⟨done, timing, isSeeded.trans seeded, none⟩
  · next unseeded =>
    obtain ⟨seeds, timing, invalid⟩ := kept.seedArrivals ready (Bool.eq_false_iff.mpr unseeded)
    let cleared : Search V E A T := { s with arrivalIter := Bfs.clear 0 levelMax s.arrivalIter }
    let first : Search V E A T := { cleared.seedArrivals with arrivalsSeeded := true }
    have next : Seeding spaced first first.invalidArrivals := by
      have same : first.invalidArrivals = s.invalidArrivals := invalid
      rw [same]
      exact ⟨seeds.sound, seeds.notStart, seeds.fits, seeds.silent, seeds.tracked⟩
    have ready' : first.timing.Ready spaced := timing ▸ ready
    obtain ⟨done, timing', isSeeded, none⟩ := next.seedInvalidArrivals ready'
    exact ⟨done, timing'.trans timing, isSeeded, none⟩

variable {timing : Timing V E A T} {before : V → ArrivalMap T} {atEnd : Bool}

theorem arrivalsAfter_append (visited : List V) (v : V) :
    arrivalsAfter timing before (visited ++ [v]) = visitArrivals timing (arrivalsAfter timing before visited) v := by
  rw [arrivalsAfter,List.foldl_append]
  rfl

/-- What holds while the queue is visited. -/
def Visiting (spaced : Spaced V T) (timing : Timing V E A T) (before : V → ArrivalMap T) (visited : List V)
    (inQueue : V → Bool) : Prop :=
  (∀ v, inQueue v = true → timing.isStart v = false) ∧ (∀ v, spaced.Fits v (arrivalsAfter timing before visited v)) ∧
    ∃ done, Settling.Tracked timing.system (entries (arrivalsAfter timing before visited)) (fun v =>
      inQueue v = true) done

theorem upward_visitor (ready : timing.Ready spaced) : Bfs.Upward timing.level (visitor timing atEnd before) := by
  intro visited v w mem
  unfold visitor at mem
  dsimp only at mem
  split at mem
  · exact (ready.adjacent mem).1
  · cases mem

/-- A vertex whose arrivals changed has what comes after it enqueued, and one whose arrivals did not is settled. -/
theorem keeps_visiting (ready : timing.Ready spaced) :
    Bfs.Keeps (visitor timing atEnd before) (Visiting spaced timing before) := by
  rintro visited inQueue v ⟨notStart, fits, done, tracked⟩ waits
  have found := entries_visit ready.linked ready.within fits v
  have new := fits_visit ready.within ready.linked fits v
  have isVisit : timing.system.value (entries (arrivalsAfter timing before visited)) v =
      {entry | entry ∈ timing.visit (arrivalsAfter timing before visited) v} := by
    rw [found]
    exact if_neg (by simp [notStart v waits])
  have flags (u : V) : Bfs.afterVisit (visitor timing atEnd before) visited inQueue v u = true ↔
      (inQueue u = true ∧ u ≠ v) ∨ u ∈ visitor timing atEnd before visited v := by
    simp [Bfs.afterVisit]
  have stays : ∀ u, inQueue u = true → u ≠ v →
    Bfs.afterVisit (visitor timing atEnd before) visited inQueue v u = true :=
    fun u mem apart => (flags u).mpr (Or.inl ⟨mem, apart⟩)
  refine ⟨fun u mem => ?_, fun u => ?_, ?_⟩
  · rcases (flags u).mp mem with ⟨before, _⟩ | adjacent
    · exact notStart u before
    · unfold visitor at adjacent
      dsimp only at adjacent
      split at adjacent
      · exact (ready.adjacent adjacent).2
      · cases adjacent
  · rw [arrivalsAfter_append]
    unfold visitArrivals
    split
    · dsimp only
      split
      · next here => exact here ▸ new
      · exact fits u
    · exact fits u
  · rw [arrivalsAfter_append]
    cases changed : arrivalsChanged (arrivalsAfter timing before visited v)
      (timing.visit (arrivalsAfter timing before visited) v) with
    | true =>
      have after : visitArrivals timing (arrivalsAfter timing before visited) v = fun other =>
          if other = v then timing.visit (arrivalsAfter timing before visited) v
            else arrivalsAfter timing before visited other :=
        if_pos changed
      rw [after]
      refine ⟨_, tracked.visit (v := v) ?_ ?_ stays ?_⟩
      · exact fun u apart => entries_eq (if_neg apart)
      · exact (entries_eq (if_pos rfl)).trans isVisit.symm
      · intro w feeds
        refine (flags w).mpr (Or.inr ?_)
        unfold visitor
        dsimp only
        rw [if_pos (by simp [changed])]
        exact ready.mem_adjacent feeds
    | false =>
      have after : visitArrivals timing (arrivalsAfter timing before visited) v = arrivalsAfter timing before visited :=
        if_neg (by simp [changed])
      rw [after]
      have apart := fun entry mem other mem' => spaced.apart v entry ((fits v).2 mem) other (new.2 mem')
      obtain ⟨nonempty, same⟩ := mem_iff_of_not_changed (fits v).1 apart changed
      have isSame : entries (arrivalsAfter timing before visited) v =
        {entry | entry ∈ timing.visit (arrivalsAfter timing before visited) v} :=
        Set.ext same
      refine ⟨_, tracked.rest (v := v) (isSame.trans isVisit.symm) (Or.inl ?_) stays⟩
      -- It has arrivals, so that the search came to it before.
      by_contra away
      obtain ⟨entry, mem⟩ := List.exists_mem_of_ne_nil _ nonempty
      have none := tracked.untouched v away
      exact (Set.eq_empty_iff_forall_notMem.mp none) entry mem

theorem Kept.findArrivals {threadCount fuel : ℕ} {schedule : Bfs.Schedule V} {level : ℤ} (positive : 0 < threadCount)
    (ready : s.timing.Ready spaced) (kept : Kept spaced s) (heard : Heard s)
    (found : s.findArrivals threadCount schedule fuel level = some s') :
    Kept spaced s' ∧ s'.timing = s.timing ∧ s'.arrivalsSeeded = true ∧ ∀ v, Due s' s'.invalidArrivals v →
    level < s.timing.level v := by
  obtain ⟨seeding, timing, seeded, invalid⟩ := kept.findArrivalsSeed ready heard
  have ready' : s.findArrivalsSeed.timing.Ready spaced := timing ▸ ready
  unfold Search.findArrivals at found
  obtain ⟨iter, run, rfl⟩ := Option.map_eq_some_iff.mp found
  have start : Visiting spaced s.findArrivalsSeed.timing s.findArrivalsSeed.arrivals
    [] s.findArrivalsSeed.arrivalIter.inQueue := by
    obtain ⟨done, tracked⟩ := seeding.tracked
    exact ⟨seeding.notStart, seeding.fits, done, tracked.mono fun v due => due.resolve_right List.not_mem_nil⟩
  have sound : Bfs.Sound s.findArrivalsSeed.timing.level { s.findArrivalsSeed.arrivalIter with
    visited := [], visitCount := 0 } :=
    ⟨seeding.sound.count, seeding.sound.first, seeding.sound.last⟩
  obtain ⟨sound', ⟨notStart, fits, done, tracked⟩, above⟩ :=
    Bfs.visitParallel_rule positive (upward_visitor ready') (keeps_visiting ready') sound start run
  refine ⟨⟨sound', notStart, fits, fun none => Bool.noConfusion none, fun none => ?_, fun _ => ⟨done, ?_⟩⟩,
    timing, seeded, ?_⟩
  · rw [seeded] at none
    cases none
  · exact tracked.mono fun v waits => Or.inl waits
  · rintro v (waits | inInvalid)
    · have high := above v waits
      rwa [timing] at high
    · have inInvalid : v ∈ s.findArrivalsSeed.invalidArrivals := inInvalid
      rw [invalid] at inInvalid
      cases inInvalid

theorem Kept.findArrivals_ends {threadCount : ℕ} (schedule : Bfs.Schedule V) (level : ℤ) (positive : 0 < threadCount)
    (ready : s.timing.Ready spaced) (kept : Kept spaced s) (heard : Heard s) :
    ∃ fuel s', s.findArrivals threadCount schedule fuel level = some s' := by
  obtain ⟨seeding, timing, _, _⟩ := kept.findArrivalsSeed ready heard
  have ready' : s.findArrivalsSeed.timing.Ready spaced := timing ▸ ready
  have sound : Bfs.Sound s.findArrivalsSeed.timing.level { s.findArrivalsSeed.arrivalIter with
    visited := [], visitCount := 0 } :=
    ⟨seeding.sound.count, seeding.sound.first, seeding.sound.last⟩
  have upward : Bfs.Upward s.findArrivalsSeed.timing.level
      (visitor s.findArrivalsSeed.timing s.findArrivalsSeed.arrivalsAtEndpointsExist s.findArrivalsSeed.arrivals) :=
        upward_visitor ready'
  obtain ⟨fuel, iter, run⟩ := Bfs.visitParallel_ends schedule positive upward level sound
  exact ⟨fuel, _, congrArg (Option.map _) run⟩

theorem Kept.settled {threadCount fuel : ℕ} {schedule : Bfs.Schedule V} {level : ℤ} (positive : 0 < threadCount)
    (ready : s.timing.Ready spaced) (kept : Kept spaced s) (heard : Heard s) (top : ∀ v, s.timing.level v ≤ level)
    (quiet : s.timing.system.Quiet) (found : s.findArrivals threadCount schedule fuel level = some s') :
    s'.timing = s.timing ∧ s.timing.system.Settled (entries s'.arrivals) := by
  obtain ⟨kept', timing, seeded, above⟩ := kept.findArrivals positive ready heard found
  obtain ⟨done, tracked⟩ := kept'.tracked seeded
  rw [timing] at tracked
  refine ⟨timing, tracked.finish (fun v due => ?_) quiet⟩
  exact absurd (above v due) (not_lt.mpr (top v))

end Searches

section Events

/-- What is announced is due. -/
structure Told (s : Search V E A T) (vs : List V) (s' : Search V E A T) : Prop where
  timing : s'.timing = s.timing
  arrivals : s'.arrivals = s.arrivals
  iter : s'.arrivalIter = s.arrivalIter
  seeded : s'.arrivalsSeeded = s.arrivalsSeeded
  exist : s'.arrivalsExist = s.arrivalsExist
  due : s.arrivalsExist = true → ∀ v, v ∈ vs ∨ Due s s.invalidArrivals v → Due s' s'.invalidArrivals v
  none : s.arrivalsExist = false → s'.invalidArrivals = s.invalidArrivals

omit [DecidableEq T] in
theorem told_arrivalInvalid (s : Search V E A T) (v : V) : Told s [v] (s.arrivalInvalid v) := by
  unfold Search.arrivalInvalid
  split
  · next both =>
    rw [Bool.and_eq_true] at both
    refine ⟨rfl, rfl, rfl, rfl, rfl, fun _ u here => ?_, fun absent => ?_⟩
    · rcases here with isV | waits | inInvalid
      · exact Or.inr (List.mem_insert_iff.mpr (Or.inl (List.mem_singleton.mp isV)))
      · exact Or.inl waits
      · exact Or.inr (List.mem_insert_iff.mpr (Or.inr inInvalid))
    · rw [both.1] at absent
      cases absent
  · next neither =>
    refine ⟨rfl, rfl, rfl, rfl, rfl, fun exist u here => ?_, fun _ => rfl⟩
    rcases here with isV | due
    · rw [List.mem_singleton.mp isV]
      exact Or.inl (by simpa [exist] using neither)
    · exact due

omit [DecidableEq T] in
theorem told_arrivalInvalids (s : Search V E A T) (vs : List V) : Told s vs (vs.foldl Search.arrivalInvalid s) := by
  induction vs generalizing s with
  | nil => exact ⟨rfl, rfl, rfl, rfl, rfl, fun _ v here => here.resolve_left List.not_mem_nil, fun _ => rfl⟩
  | cons v rest ih =>
    have first := told_arrivalInvalid s v
    have later := ih (s.arrivalInvalid v)
    refine ⟨later.timing.trans first.timing, later.arrivals.trans first.arrivals, later.iter.trans first.iter,
      later.seeded.trans first.seeded,
      later.exist.trans first.exist, fun exist u here => ?_, fun absent => ?_⟩
    · apply later.due (first.exist.trans exist)
      rcases here with inList | due
      · rcases List.mem_cons.mp inList with isV | inRest
        · exact Or.inr (first.due exist u (Or.inl (List.mem_singleton.mpr isV)))
        · exact Or.inl inRest
      · exact Or.inr (first.due exist u (Or.inr due))
    · exact (later.none (first.exist.trans absent)).trans (first.none absent)

theorem Kept.exist (kept : Kept spaced s) (seeded : s.arrivalsSeeded = true) : s.arrivalsExist = true := by
  cases exist : s.arrivalsExist with
  | true => rfl
  | false =>
    rw [(kept.fresh exist).1] at seeded
    cases seeded

theorem Kept.edit (kept : Kept spaced s) {timing : Timing V E A T} (invalid : List V)
    (level : timing.level = s.timing.level) (notStart : ∀ v, s.arrivalIter.inQueue v = true → timing.isStart v = false)
    (told : ∀ v, v ∈ invalid ∨ s.timing.SameAt timing v) :
    Kept spaced (invalid.foldl Search.arrivalInvalid { s with timing := timing }) := by
  let changed : Search V E A T := { s with timing := timing }
  have isTold : Told changed invalid (invalid.foldl Search.arrivalInvalid changed) :=
    told_arrivalInvalids changed invalid
  refine ⟨?_, fun v waits => ?_, fun v => ?_, fun absent => ?_, fun unseeded v => ?_, fun seeded => ?_⟩
  · rw [isTold.timing,isTold.iter]
    show Bfs.Sound timing.level s.arrivalIter
    rw [level]
    exact kept.sound
  · rw [isTold.timing]
    rw [isTold.iter] at waits
    exact notStart v waits
  · rw [isTold.arrivals]
    exact kept.fits v
  · have absent : s.arrivalsExist = false := isTold.exist.symm.trans absent
    obtain ⟨unseeded, none, empty⟩ := kept.fresh absent
    refine ⟨isTold.seeded.trans unseeded, (isTold.none absent).trans none, fun v => ?_⟩
    rw [isTold.iter]
    exact empty v
  · rw [isTold.arrivals]
    exact kept.unseeded (isTold.seeded.symm.trans unseeded) v
  · have seeded : s.arrivalsSeeded = true := isTold.seeded.symm.trans seeded
    obtain ⟨done, tracked⟩ := kept.tracked seeded
    have due := isTold.due (kept.exist seeded)
    rw [isTold.timing,isTold.arrivals]
    refine ⟨done, tracked.change (fun v here => due v (Or.inr here)) rfl fun v => ?_⟩
    rcases told v with inInvalid | same
    · exact Or.inl (due v (Or.inl inInvalid))
    · exact Or.inr ⟨same.1 _, same.2.1, same.2.2⟩

theorem sound_of_none {st : Bfs.State V} {level : V → ℤ} (sound : Bfs.Sound level st) (none : ∀ v, st.inQueue v = false)
    (level' : V → ℤ) :
    Bfs.Sound level' st := by
  refine ⟨fun l v => ?_, fun v waits => ?_, fun v waits => ?_⟩
  · rw [sound.count l v]
    simp [none v]
  · rw [none v] at waits
    cases waits
  · rw [none v] at waits
    cases waits

theorem Kept.constrain (kept : Kept spaced s) (timing : Timing V E A T) :
    Kept spaced (arrivalsInvalid { s with timing := timing }) := by
  unfold Search.arrivalsInvalid
  split
  · next exist =>
    obtain ⟨sound, none⟩ := kept.sound.clear 0 levelMax timing.level
    refine ⟨sound, fun v waits => ?_, fun _ => ⟨Keyed.nil, fun _ mem => nomatch mem⟩, fun absent => ?_, fun _ _ =>
      rfl, fun seeded => Bool.noConfusion seeded⟩
    · have waits : (Bfs.clear 0 levelMax s.arrivalIter).inQueue v = true := waits
      rw [none v] at waits
      cases waits
    · have absent : s.arrivalsExist = false := absent
      have exist : s.arrivalsExist = true := exist
      rw [exist] at absent
      cases absent
  · next absent =>
    obtain ⟨unseeded, invalid, none⟩ := kept.fresh (Bool.eq_false_iff.mpr absent)
    refine ⟨sound_of_none kept.sound none _, fun v waits => ?_, kept.fits, kept.fresh, kept.unseeded, fun seeded => ?_⟩
    · have waits : s.arrivalIter.inQueue v = true := waits
      rw [none v] at waits
      cases waits
    · have seeded : s.arrivalsSeeded = true := seeded
      rw [unseeded] at seeded
      cases seeded

theorem Kept.levelChange (kept : Kept spaced s) (v : V) (level : ℤ) :
    Kept spaced { s.levelChangedBefore v with
      timing := { (s.levelChangedBefore v).timing with
        level := fun other => if other = v then level else (s.levelChangedBefore v).timing.level other } } := by
  unfold Search.levelChangedBefore
  split
  · next exist =>
    let removed : Search V E A T := { s with arrivalIter := Bfs.remove s.timing.level s.arrivalIter v }
    have isTold : Told removed [v] (removed.arrivalInvalid v) := told_arrivalInvalid removed v
    have flags : ∀ u, removed.arrivalIter.inQueue u = (s.arrivalIter.inQueue u && decide (u ≠ v)) :=
      kept.sound.inQueue_remove v
    refine ⟨?_, fun u waits => ?_, fun u => ?_, fun absent => ?_, fun unseeded u => ?_, fun seeded => ?_⟩
    · show Bfs.Sound (fun other => if other = v then level else (removed.arrivalInvalid v).timing.level other)
        (removed.arrivalInvalid v).arrivalIter
      rw [isTold.timing,isTold.iter]
      exact kept.sound.remove v level
    · have waits : (removed.arrivalInvalid v).arrivalIter.inQueue u = true := waits
      rw [isTold.iter,flags u,Bool.and_eq_true] at waits
      show (removed.arrivalInvalid v).timing.isStart u = false
      rw [isTold.timing]
      exact kept.notStart u waits.1
    · show spaced.Fits u ((removed.arrivalInvalid v).arrivals u)
      rw [isTold.arrivals]
      exact kept.fits u
    · have absent : s.arrivalsExist = false := isTold.exist.symm.trans absent
      rw [exist] at absent
      cases absent
    · show (removed.arrivalInvalid v).arrivals u = []
      rw [isTold.arrivals]
      exact kept.unseeded (isTold.seeded.symm.trans unseeded) u
    · obtain ⟨done, tracked⟩ := kept.tracked (isTold.seeded.symm.trans seeded)
      have due := isTold.due exist
      refine ⟨done, ?_⟩
      show Settling.Tracked (removed.arrivalInvalid v).timing.system (entries (removed.arrivalInvalid v).arrivals)
        (Due (removed.arrivalInvalid v) (removed.arrivalInvalid v).invalidArrivals) done
      rw [isTold.timing,isTold.arrivals]
      refine tracked.mono fun u here => due u ?_
      by_cases isV : u = v
      · exact Or.inl (List.mem_singleton.mpr isV)
      · refine Or.inr (here.imp_left fun waits => ?_)
        rw [flags u]
        simp [waits,isV]
  · next absent =>
    obtain ⟨unseeded, invalid, none⟩ := kept.fresh (Bool.eq_false_iff.mpr absent)
    refine ⟨sound_of_none kept.sound none _, kept.notStart, kept.fits, kept.fresh, kept.unseeded, fun seeded => ?_⟩
    have seeded : s.arrivalsSeeded = true := seeded
    rw [unseeded] at seeded
    cases seeded

/-- What an event is to meet. An edit announces every vertex whose arrivals follow differently, and makes no start of a
vertex that waits to be visited. -/
def Meets (spaced : Spaced V T) (s : Search V E A T) : Event V E A T → Prop
  | .edit timing invalid => timing.level = s.timing.level ∧
    (∀ v, s.arrivalIter.inQueue v = true → timing.isStart v = false) ∧
      ∀ v, v ∈ invalid ∨ s.timing.SameAt timing v
  | .constrain _ => True
  | .levelChange _ _ => True
  | .findArrivals threadCount _ _ _ => 0 < threadCount ∧ s.timing.Ready spaced ∧ Heard s

/-- Every event of a run meets its condition. -/
def Along (spaced : Spaced V T) : Search V E A T → List (Event V E A T) → Prop
  | _, [] => True
  | s, event :: rest => Meets spaced s event ∧ ∀ s', s.step event = some s' → Along spaced s' rest

theorem Kept.step (kept : Kept spaced s) {event : Event V E A T} (meets : Meets spaced s event)
    (one : s.step event = some s') : Kept spaced s' := by
  cases event with
  | edit timing invalid =>
    cases Option.some.inj one
    exact kept.edit invalid meets.1 meets.2.1 meets.2.2
  | constrain timing =>
    cases Option.some.inj one
    exact kept.constrain timing
  | levelChange v level =>
    cases Option.some.inj one
    exact kept.levelChange v level
  | findArrivals threadCount schedule fuel level => exact (kept.findArrivals meets.1 meets.2.1 meets.2.2 one).1

theorem Kept.run {events : List (Event V E A T)} (kept : Kept spaced s) (along : Along spaced s events)
    (run : s.run events = some s') : Kept spaced s' := by
  induction events generalizing s with
  | nil => exact Option.some.inj run ▸ kept
  | cons event rest ih =>
    have run : (s.step event).bind (fun s => s.run rest) = some s' := run
    obtain ⟨next, one, later⟩ := Option.bind_eq_some_iff.mp run
    exact ih (kept.step along.1 one) (along.2 next one) later

end Events

end Search

end GTPower.ArrivalSearch
