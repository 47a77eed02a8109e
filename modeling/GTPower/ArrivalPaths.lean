import Mathlib.Data.Fintype.Basic
import Mathlib.Tactic.FinCases
import GTPower.ArrivalRuns

/-! The arrivals that a search finds are those of the worst paths. -/

namespace GTPower.ArrivalSearch
open KeyedTables (Keyed)

variable {V E A T : Type*} [DecidableEq V] [DecidableEq T]

namespace Timing

section Paths
variable (timing : Timing V E A T)

open Classical in
/-- The arrivals that originate at a vertex that is visited: an unclocked register clock is one that no clock comes
to. -/
noncomputable def originating (arr : V → Set (T × ℚ)) (v : V) : ArrivalMap T :=
  timing.ownArrivals v ++
    if timing.isRegClk v = true ∧
      ¬∃ clk ∈ covered (timing.worst (timing.faninArrivals arr v)) (timing.ownArrivals v),
        timing.isClock clk.1 = true then
      timing.unclkedPaths v true false
    else []

/-- The arrivals of paths. A path goes on from where it comes in unless its tag originates there. -/
inductive Path (arr : V → Set (T × ℚ)) : V → T × ℚ → Prop
  | seed {v : V} {entry : T × ℚ} (start : timing.isStart v = true) (mem : entry ∈ timing.seedMap v) : Path arr v entry
  | own {v : V} {entry : T × ℚ} (notStart : timing.isStart v = false)
    (mem : entry ∈ setArrivals [] (timing.originating arr v)) :
      Path arr v entry
  | thru {v : V} {e : E} {arc : A} {before entry : T × ℚ} (notStart : timing.isStart v = false)
    (into : e ∈ timing.inEdges v)
      (usable : timing.Usable e) (path : Path arr (timing.fromVertex e) before)
        (isArc : arc ∈ timing.arcsFrom e before.1)
      (visit : timing.visitFromPath e arc before = some entry)
      (open' : ∀ other ∈ timing.originating arr v, other.1 ≠ entry.1) : Path arr v entry

/-- No path to the vertex with the same tag is worse. -/
def WorstPath (arr : V → Set (T × ℚ)) (v : V) (entry : T × ℚ) : Prop :=
  timing.Path arr v entry ∧
    ∀ other, timing.Path arr v other → other.1 = entry.1 →
      MinMax.exactDelayGreater other.2 entry.2 (timing.minMax entry.1) = false

end Paths

section Worst
variable {timing : Timing V E A T} {arrivals : V → ArrivalMap T} {arr : V → Set (T × ℚ)} {v : V} {entry : T × ℚ}
    {spaced : Spaced V T}

theorem covered_covered (offers : Set (T × ℚ)) (own more : ArrivalMap T) :
    covered (covered offers own) more = covered offers (own ++ more) := by
  ext entry
  have later : entry ∈ setArrivals (setArrivals [] own) more ↔
      (entry ∈ setArrivals [] own ∧ ∀ other ∈ more, other.1 ≠ entry.1) ∨ entry ∈ setArrivals [] more :=
    mem_setArrivals (keyed_setArrivals Keyed.nil own) more
  simp only [covered,Set.mem_ofPred_eq,setArrivals_append,later,List.forall_mem_append]
  tauto

omit [DecidableEq V] in
theorem visitValue_eq (arr : V → Set (T × ℚ)) (v : V) :
    timing.visitValue arr v = covered (timing.worst (timing.faninArrivals arr v)) (timing.originating arr v) := by
  unfold visitValue originating
  dsimp only
  split
  · exact covered_covered _ _ _
  · rw [List.append_nil]

theorem exactDelayGreater_chain {first second third : ℚ} {minMax : MinMax}
    (one : MinMax.exactDelayGreater first second minMax = false)
    (two : MinMax.exactDelayGreater second third minMax = false) :
    MinMax.exactDelayGreater first third minMax = false := by
  cases minMax <;> simp only [MinMax.exactDelayGreater,decide_eq_false_iff_not,not_lt] at one two ⊢ <;> linarith

omit [DecidableEq V] [DecidableEq T] in
theorem visitFromPath_mono {e : E} {arc : A} {t : T} {a b : ℚ}
    (compatible : ∀ e arc t path, timing.arcPath e arc t = some path → timing.minMax path.toTag = timing.minMax t)
    (le : MinMax.exactDelayGreater a b (timing.minMax t) = false)
    (visit : timing.visitFromPath e arc (t, a) = some entry) :
    ∃ a', timing.visitFromPath e arc (t, b) = some (entry.1, a') ∧
      MinMax.exactDelayGreater entry.2 a' (timing.minMax entry.1) = false := by
  unfold visitFromPath at visit ⊢
  obtain ⟨path, found, rfl⟩ := Option.map_eq_some_iff.mp visit
  dsimp only at found ⊢
  rw [found,compatible e arc t path found]
  refine ⟨path.idealArrival.getD b + path.arcDelay, rfl, ?_⟩
  cases path.idealArrival with
  | some ideal => exact exactDelayGreater_self _ _
  | none =>
    cases minMax : timing.minMax t <;>
      simpa [minMax,MinMax.exactDelayGreater] using le

omit [DecidableEq V] in
/-- Settled arrivals are of paths, and every path is met by one that is no better. -/
theorem paths_of_settled (ready : timing.Ready spaced) (fits : ∀ v, spaced.Fits v (arrivals v))
    (settled : timing.system.Settled (entries arrivals))
    (compatible : ∀ e arc t path, timing.arcPath e arc t = some path → timing.minMax path.toTag = timing.minMax t)
    (v : V) :
    (∀ entry ∈ arrivals v, timing.Path (entries arrivals) v entry) ∧
      ∀ path, timing.Path (entries arrivals) v path → ∃ entry ∈ arrivals v, entry.1 = path.1 ∧
        MinMax.exactDelayGreater path.2 entry.2 (timing.minMax path.1) = false := by
  induction v using ready.wellFounded.induction with
  | _ v ih =>
    have here := settled v
    cases start : timing.isStart v with
    | true =>
      have isSeed : ∀ entry, entry ∈ arrivals v ↔ entry ∈ timing.seedMap v := Set.ext_iff.mp (here.trans (if_pos start))
      refine ⟨fun entry mem => .seed start ((isSeed entry).mp mem), fun path isPath => ?_⟩
      cases isPath with
      | seed _ mem => exact ⟨path, (isSeed path).mpr mem, rfl, exactDelayGreater_self _ _⟩
      | own notStart => simp [start] at notStart
      | thru notStart => simp [start] at notStart
    | false =>
      have isValue : ∀ entry, entry ∈ arrivals v ↔
          entry ∈ covered (timing.worst (timing.faninArrivals (entries arrivals) v))
            (timing.originating (entries arrivals) v) := by
        have value := here.trans (if_neg (by simp [start]))
        rw [visitValue_eq] at value
        exact Set.ext_iff.mp value
      have feeds : ∀ e ∈ timing.inEdges v, timing.Usable e → timing.system.feeds (timing.fromVertex e) v :=
        fun e into usable => ⟨start, e, into, usable, rfl⟩
      constructor
      · intro entry mem
        rcases (isValue entry).mp mem with ⟨⟨⟨e, into, usable, before, inside, arc, isArc, visit⟩, _⟩, apart⟩ | own
        · exact .thru start into usable ((ih _ (feeds e into usable)).1 before inside) isArc visit apart
        · exact .own start own
      · intro path isPath
        cases isPath with
        | seed isStart => simp [start] at isStart
        | own _ mem => exact ⟨path, (isValue path).mpr (Or.inr mem), rfl, exactDelayGreater_self _ _⟩
        | @thru _ e arc before _ _ into usable earlier isArc visit apart =>
          obtain ⟨entry, inside, tag, worse⟩ := (ih _ (feeds e into usable)).2 before earlier
          obtain ⟨a', visit', worse'⟩ := visitFromPath_mono compatible worse visit
          rw [← tag] at visit' isArc
          have offered : (path.1, a') ∈ timing.faninArrivals (entries arrivals) v :=
            ⟨e, into, usable, entry, inside, arc, isArc, visit'⟩
          have distinct := ready.within.apart ready.linked fits v
          obtain ⟨found, mem, tag', worst⟩ :=
            exists_visitFromToPaths timing distinct ((mem_faninPaths ready.linked _).mpr offered)
          have same : {offer | offer ∈ timing.faninPaths arrivals v} = timing.faninArrivals (entries arrivals) v :=
            Set.ext fun entry => mem_faninPaths ready.linked entry
          have isWorst := (mem_visitFromToPaths distinct found).mp mem
          rw [same] at isWorst
          refine ⟨found, (isValue found).mpr (Or.inl ⟨isWorst, fun other mem => tag' ▸ apart other mem⟩), tag', ?_⟩
          exact exactDelayGreater_chain worse' worst

end Worst

omit [DecidableEq V] in
/-- The arrivals at a vertex follow in the same way when only the delays of edges to other vertices change. -/
theorem sameAt_arcPath (timing : Timing V E A T) (arcPath : E → A → T → Option (ArcPath T)) {v : V}
    (same : ∀ e ∈ timing.inEdges v, arcPath e = timing.arcPath e) :
    timing.SameAt { timing with arcPath := arcPath } v := by
  have fanin (arr : V → Set (T × ℚ)) :
      ({ timing with arcPath := arcPath } : Timing V E A T).faninArrivals arr v = timing.faninArrivals arr v := by
    have offered : ∀ e ∈ timing.inEdges v, ∀ arc before,
        ({ timing with arcPath := arcPath } : Timing V E A T).visitFromPath e arc before =
          timing.visitFromPath e arc before := by
      intro e into arc before
      simp only [visitFromPath,same e into]
    ext entry
    constructor
    · rintro ⟨e, into, usable, before, mem, arc, isArc, visit⟩
      exact ⟨e, into, usable, before, mem, arc, isArc, offered e into arc before ▸ visit⟩
    · rintro ⟨e, into, usable, before, mem, arc, isArc, visit⟩
      exact ⟨e, into, usable, before, mem, arc, isArc, (offered e into arc before).trans visit⟩
  refine ⟨fun arr => ?_, fun u feeds => feeds, fun begins => begins⟩
  show (if timing.isStart v = true then {entry | entry ∈ timing.seedMap v}
    else ({ timing with arcPath := arcPath } : Timing V E A T).visitValue arr v) =
    if timing.isStart v = true then {entry | entry ∈ timing.seedMap v} else timing.visitValue arr v
  unfold visitValue
  rw [fanin arr]
  rfl

end Timing

namespace Search
variable {s : Search V E A T} {spaced : Timing.Spaced V T}
open Timing

def Event.after (timing : Timing V E A T) : Event V E A T → Timing V E A T
  | .edit timing' _ => timing'
  | .constrain timing' => timing'
  | .levelChange v level => { timing with level := fun other => if other = v then level else timing.level other }
  | .findArrivals _ _ _ _ => timing

theorem step_timing {s' : Search V E A T} {event : Event V E A T} (one : s.step event = some s') :
    s'.timing = event.after s.timing := by
  cases event with
  | edit timing invalid =>
    cases Option.some.inj one
    exact (told_arrivalInvalids _ _).timing
  | constrain timing =>
    cases Option.some.inj one
    unfold arrivalsInvalid
    split <;> rfl
  | levelChange v level =>
    cases Option.some.inj one
    have same : (s.levelChangedBefore v).timing = s.timing := by
      unfold levelChangedBefore
      split
      · exact (told_arrivalInvalid _ v).timing
      · rfl
    simp only [Event.after,same]
  | findArrivals threadCount schedule fuel level =>
    obtain ⟨iter, _, rfl⟩ := Option.map_eq_some_iff.mp one
    show s.findArrivalsSeed.timing = s.timing
    refine ((foldl_seedArrival_frame _ _).1).trans ?_
    split
    · rfl
    · exact (foldl_seedArrival_frame _ _).1

theorem run_cons {next : Search V E A T} {event : Event V E A T} (one : s.step event = some next)
    (rest : List (Event V E A T)) :
    s.run (event :: rest) = next.run rest := by
  rw [run,List.foldlM_cons,one]
  rfl

theorem run_timing {s' : Search V E A T} {events : List (Event V E A T)} (run : s.run events = some s') :
    s'.timing = events.foldl Event.after s.timing := by
  induction events generalizing s with
  | nil => exact congrArg Search.timing (Option.some.inj run).symm
  | cons event rest ih =>
    obtain ⟨next, one, later⟩ := Option.bind_eq_some_iff.mp run
    rw [List.foldl_cons,← step_timing one]
    exact ih later

end Search

section Register

/-- An input 0 and the output 6 of a register with the clock pin 5 lead through a gate, with the pins 1 and 2, to 3. -/
def register : Timing (Fin 7) (Fin 6) Unit Bool where
  vertices := List.finRange 7
  level v := [0, 1, 3, 4, 0, 1, 2].getD v 0
  inEdges v := (List.finRange 6).filter fun e => [1, 2, 3, 5, 6, 2].getD e 0 = v
  outEdges v := (List.finRange 6).filter fun e => [0, 1, 2, 4, 5, 6].getD e 0 = v
  fromVertex e := [0, 1, 2, 4, 5, 6].getD e 0
  toVertex e := [1, 2, 3, 5, 6, 2].getD e 0
  isConstant _ := false
  isDisabledConstraint _ := false
  edgeEnabled _ := true
  isTopLevelPort v := v = 0 || v = 4
  isInput v := v = 0 || v = 4
  isBidirect _ := false
  isBidirectDriver _ := false
  bidirectDrvrSlewFromLoad _ := false
  isLeafPinClock v := v = 4
  isPathDelayInternalStartpoint _ := false
  isPathDelayInternalEndpoint _ := false
  hasInputDelay v := v = 0
  isRegClk v := v = 5
  unconstrainedPaths := false
  minMax _ := .max
  isClock t := t
  arcsFrom _ _ := [()]
  arcPath e _ t := some ⟨t && e ≠ 4, none, 1⟩
  clkArrivals _ := [(true, 0)]
  inputDelayArrivals _ _ := [(false, 1)]
  noInputDelayArrivals _ := []
  fromUnclkedInputTags _ _ _ := []

def slower : Timing (Fin 7) (Fin 6) Unit Bool :=
  { register with arcPath := fun e => if e = 1 then fun _ t => some ⟨t, none, 9⟩ else register.arcPath e }

/-- A whole search, a delay that changes, a vertex that goes to another level, and a search that stops below it. -/
def delayed : List (Search.Event (Fin 7) (Fin 6) Unit Bool) :=
  [.findArrivals 1 Bfs.inOrder 20 4, .edit slower [2], .levelChange 3 6, .findArrivals 2 Bfs.inOrder 20 3]

def afterwards : Timing (Fin 7) (Fin 6) Unit Bool :=
  { slower with level := fun v => if v = 3 then 6 else register.level v }

def eitherArrivals (v : Fin 7) : List (Bool × ℚ) :=
  [[(false, 1)], [(false, 2)], [(false, 3), (false, 11)], [(false, 4), (false, 12)], [(true, 0)], [(true, 1)],
    [(false, 2)]].getD v []

def either : Timing.Spaced (Fin 7) Bool where
  arrivals v := {entry | entry ∈ eitherArrivals v}
  apart v := by
    have apart : ∀ v, ∀ entry ∈ eitherArrivals v, ∀ other ∈ eitherArrivals v, entry.1 = other.1 →
      delayEqual entry.2 other.2 = true →
        entry.2 = other.2 := by decide +kernel
    exact apart v

theorem within_either {timing : Timing (Fin 7) (Fin 6) Unit Bool}
    (seeds : ∀ v, ∀ entry ∈ timing.seedMap v, entry ∈ eitherArrivals v)
    (own : ∀ v, ∀ entry ∈ timing.ownArrivals v ++ timing.unclkedPaths v true false, entry ∈ eitherArrivals v)
    (arcs : ∀ v, ∀ e ∈ timing.inEdges v, ∀ before ∈ eitherArrivals (timing.fromVertex e),
      (timing.visitFromPath e () before).all fun entry => entry ∈ eitherArrivals v) : timing.Within either where
  seeds v _ mem := seeds v _ mem
  own v _ mem := own v _ mem
  fanin := by
    rintro v entry ⟨e, into, _, before, mem, arc, _, visit⟩
    have inside := arcs v e into before mem
    rw [visit] at inside
    have mem' : entry ∈ eitherArrivals v := of_decide_eq_true inside
    exact mem'

theorem register_ready : register.Ready either := by
  refine ⟨⟨?_, ?_⟩, ?_, ?_, ?_, within_either ?_ ?_ ?_⟩ <;> decide +kernel

theorem afterwards_ready : afterwards.Ready either := by
  refine ⟨⟨?_, ?_⟩, ?_, ?_, ?_, within_either ?_ ?_ ?_⟩ <;> decide +kernel

theorem afterwards_quiet : afterwards.system.Quiet := by
  have feeds : ∀ e : Fin 6, afterwards.system.feeds (afterwards.fromVertex e) (afterwards.toVertex e) := by
    intro e
    refine ⟨?_, e, ?_, ?_, rfl⟩ <;> revert e <;> decide +kernel
  have zero : afterwards.system.Reached 0 := .own ⟨by decide +kernel, by decide +kernel⟩
  have four : afterwards.system.Reached 4 := .own ⟨by decide +kernel, by decide +kernel⟩
  have one : afterwards.system.Reached 1 := .step zero (feeds 0)
  have two : afterwards.system.Reached 2 := .step one (feeds 1)
  have three : afterwards.system.Reached 3 := .step two (feeds 2)
  have five : afterwards.system.Reached 5 := .step four (feeds 3)
  have six : afterwards.system.Reached 6 := .step five (feeds 4)
  intro v away
  have all : ∀ v, afterwards.system.Reached v := by
    intro v
    fin_cases v <;> assumption
  exact absurd (all v) away

open Search in
theorem along_delayed : Along either (initial register) delayed := by
  have start : Meets either (initial register) (.findArrivals 1 Bfs.inOrder 20 4) :=
    ⟨Nat.one_pos, register_ready, fun seeded => Bool.noConfusion seeded⟩
  refine ⟨start, fun s1 first => ⟨?_, fun s2 second => ⟨trivial, fun s3 third => ?_⟩⟩⟩
  · have kept := (kept_initial register).step start first
    have timing : s1.timing = register := step_timing first
    refine ⟨?_, fun v waits => ?_, fun v => ?_⟩
    · rw [timing]
      rfl
    · have notStart := kept.notStart v waits
      rwa [timing] at notStart
    · rw [timing]
      by_cases isTwo : v = 2
      · exact Or.inl (List.mem_singleton.mpr isTwo)
      · refine Or.inr (Timing.sameAt_arcPath register _ fun e into => if_neg ?_)
        revert v e
        decide +kernel
  · have timing : s3.timing = afterwards := by
      rw [step_timing third,step_timing second]
      rfl
    refine ⟨⟨Nat.two_pos, ?_, fun _ v mem => ?_⟩, fun _ _ => trivial⟩
    · rw [timing]
      exact afterwards_ready
    · have run : (initial register).run (delayed.take 3) = some s3 :=
        (run_cons first _).trans ((run_cons second _).trans (run_cons third []))
      have invalid : ((initial register).run (delayed.take 3)).map (·.invalidArrivals) = some [3, 2] := by
        decide +kernel
      have notStart : ∀ v ∈ ([3, 2] : List (Fin 7)), afterwards.isStart v = false := by decide +kernel
      rw [run] at invalid
      have waiting : s3.invalidArrivals = [3, 2] := Option.some.inj invalid
      rw [waiting] at mem
      rw [timing,notStart v mem]
      exact fun isStart => Bool.noConfusion isStart

open Search in
theorem meets_delayed : ∃ s, (initial register).run delayed = some s ∧ s.timing = afterwards ∧
    ∀ fuel, Meets either s (.findArrivals 3 Bfs.inOrder fuel 6) := by
  have invalid : ((initial register).run delayed).map (·.invalidArrivals) = some [] := by decide +kernel
  obtain ⟨s, run, none⟩ := Option.map_eq_some_iff.mp invalid
  have timing : s.timing = afterwards := run_timing run
  refine ⟨s, run, timing, fun fuel => ⟨by decide, ?_, fun _ v mem => ?_⟩⟩
  · rw [timing]
    exact afterwards_ready
  · rw [none] at mem
    cases mem

end Register

end GTPower.ArrivalSearch
