import GTPower.CappedQueues
import GTPower.LeastElements
import GTPower.MinMax

/-! The worst path ends of a group. The ends of each endpoint are visited by one visitor, which asks the group about
ends before it inserts them; visitors run side by side, and the group is pruned as it grows. -/
namespace GTPower.PathGroups
open CappedQueues LeastElements

section Source

def groupCountMax : ℤ := 2 ^ 31 - 1

/-- A result of `int` arithmetic, or a size that is cast to `int`. -/
def int (x : ℤ) : ℤ := x.bmod (2 ^ 32)

/-- What is read of the path ends: `borrow` is there for latch checks, `noCrpr` is what the comparison without crpr
reads, and `paths` what the ends of one slack are compared by. -/
structure PathEndData (E V K R : Type*) where
  vertex : E → V
  isUnconstrained : E → Bool
  minMax : E → MinMax
  dataArrivalTime : E → ℚ
  slack : E → ℚ
  slackNoCrpr : E → ℚ
  borrow : E → Option ℚ
  noCrpr : E → K
  paths : E → R

namespace PathEndData
variable {E V K R : Type*} [LinearOrder R] (d : PathEndData E V K R)

/-- Latch slack is zero if there is borrowing so break ties based on borrow time. -/
def cmpSlack (pathEnd1 pathEnd2 : E) : Ordering :=
  match d.borrow pathEnd1, d.borrow pathEnd2 with
  | some borrow1, some borrow2 =>
    if d.slack pathEnd1 = 0 ∧ d.slack pathEnd2 = 0 then compare borrow2 borrow1
    else compare (d.slack pathEnd1) (d.slack pathEnd2)
  | _, _ => compare (d.slack pathEnd1) (d.slack pathEnd2)

def cmpArrival (pathEnd1 pathEnd2 : E) : Ordering :=
  match d.minMax pathEnd1 with
  | .max => compare (d.dataArrivalTime pathEnd1) (d.dataArrivalTime pathEnd2)
  | .min => compare (d.dataArrivalTime pathEnd2) (d.dataArrivalTime pathEnd1)

/-- The worst end is first. -/
def slackCmp (pathEnd1 pathEnd2 : E) : Ordering :=
  if d.isUnconstrained pathEnd1 then (d.cmpArrival pathEnd1 pathEnd2).swap else d.cmpSlack pathEnd1 pathEnd2

def cmp (pathEnd1 pathEnd2 : E) : Ordering :=
  (d.slackCmp pathEnd1 pathEnd2).then (compare (d.paths pathEnd1) (d.paths pathEnd2))

end PathEndData

/-- Path ends that `PathEndLess` orders, whose slack crpr does not decrease. -/
structure PathEnds (E V K R : Type*) [LinearOrder E] [LinearOrder R] extends PathEndData E V K R where
  less_iff (pathEnd1 pathEnd2 : E) : pathEnd1 < pathEnd2 ↔ toPathEndData.cmp pathEnd1 pathEnd2 = .lt
  crpr (pathEnd : E) : slackNoCrpr pathEnd ≤ slack pathEnd
  unconstrained {pathEnd : E} : isUnconstrained pathEnd = true → slackNoCrpr pathEnd = MinMax.min.initValue

/-- Groups are made for slacks or for arrivals; those for slacks are for the least ones. -/
structure GroupParams where
  groupCount : ℤ
  endpointCount : ℤ
  slackMin : ℚ
  slackMax : ℚ
  compareSlack : Bool
  minMax : MinMax
  compares : compareSlack = true → minMax = .min
  groupCount_pos : 1 ≤ groupCount
  groupCount_le : groupCount ≤ groupCountMax
  endpointCount_pos : 1 ≤ endpointCount

structure PathGroup (E : Type*) where
  pathEnds : List E
  threshold : ℚ

variable {E V K R : Type*} [LinearOrder E] [DecidableEq V] [DecidableEq K] (d : PathEndData E V K R)
    (params : GroupParams)

def GroupParams.init : PathGroup E := ⟨[], params.minMax.initValue⟩

namespace PathGroup

def savable (group : PathGroup E) (pathEnd : E) : Bool :=
  if params.compareSlack then
    -- crpr increases the slack, so the slack without it is checked first
    if d.slackNoCrpr pathEnd ≠ params.minMax.initValue ∧ d.slackNoCrpr pathEnd ≤ group.threshold ∧
        d.slackNoCrpr pathEnd ≤ params.slackMax then
      d.slack pathEnd ≤ group.threshold && d.slack pathEnd ≤ params.slackMax && params.slackMin ≤ d.slack pathEnd
    else false
  else d.dataArrivalTime pathEnd ≠ params.minMax.initValue &&
    MinMax.delayGreaterEqual (d.dataArrivalTime pathEnd) group.threshold params.minMax

def sort (pathEnds : List E) : List E := pathEnds.insertionSort (· ≤ ·)

/-- Squish up to endpoint_count path ends per vertex up to the front. -/
def squish : List E → (V → ℕ) → ℕ → List E
  | [], _, _ => []
  | pathEnd :: pathEnds, pathCounts, endCount =>
    if endCount < params.groupCount ∧ pathCounts (d.vertex pathEnd) < params.endpointCount then
      pathEnd :: squish pathEnds (bump pathCounts (d.vertex pathEnd)) (endCount + 1)
    else squish pathEnds pathCounts endCount

/-- What the threshold is compared with. -/
def measure (pathEnd : E) : ℚ := if params.compareSlack then d.slack pathEnd else d.dataArrivalTime pathEnd

/-- At least one end is left whenever a group is pruned. -/
def prune (group : PathGroup E) : PathGroup E :=
  let pathEnds := squish d params (sort group.pathEnds) (fun _ => 0) 0
  ⟨pathEnds, match pathEnds.getLast? with
    | some lastEnd => measure d params lastEnd
    | none => group.threshold⟩

def insert (group : PathGroup E) (pathEnd : E) : PathGroup E :=
  let group := { group with pathEnds := group.pathEnds ++ [pathEnd] }
  if params.groupCount ≠ groupCountMax ∧
    int (params.groupCount * 2) < int group.pathEnds.length then group.prune d params
  else group

def ensureSortedMaxPaths (group : PathGroup E) : PathGroup E :=
  if params.groupCount < int group.pathEnds.length then group.prune d params
    else { group with pathEnds := sort group.pathEnds }

end PathGroup

inductive Visitor (E : Type*) where
  | done
  | savable (pathEnd : E) (next : Bool → Visitor E)
  | insert (pathEnd : E) (next : Visitor E)

namespace Visitor

def insertWorst : Option E → Visitor E
  | some worstEnd => insert worstEnd done
  | none => done

def keepWorst (pathEnd : E) : Option E → E
  | some worstEnd => if pathEnd < worstEnd then pathEnd else worstEnd
  | none => pathEnd

/-- Only keep the path end with the smallest slack or latest arrival, and insert it at the end of the vertex. -/
def makePathEnds1 : List E → Option E → Visitor E
  | [], worstEnd => insertWorst worstEnd
  | pathEnd :: pathEnds, worstEnd => savable pathEnd fun save =>
    if save then makePathEnds1 pathEnds (some (keepWorst pathEnd worstEnd)) else makePathEnds1 pathEnds worstEnd

/-- Only save the worst path end for each crpr tag; the ends are sorted. -/
def makePathEndsAll : List E → List K → ℕ → Visitor E
  | [], _, _ => done
  | pathEnd :: pathEnds, uniqueEnds, n =>
    if n < params.endpointCount then
      if d.noCrpr pathEnd ∈ uniqueEnds then makePathEndsAll pathEnds uniqueEnds n
      else savable pathEnd fun save =>
        if save then insert pathEnd (makePathEndsAll pathEnds (d.noCrpr pathEnd :: uniqueEnds) (n + 1))
        else makePathEndsAll pathEnds uniqueEnds n
    else done

/-- The ends of the group at one endpoint, in the order of their visits; `sort` sorts by slack. -/
def visit (sort : List E → List E) (pathEnds : List E) : Visitor E :=
  if params.endpointCount = 1 then makePathEnds1 pathEnds none else makePathEndsAll d params (sort pathEnds) [] 0

def isDone : Visitor E → Bool
  | done => true
  | _ => false

def call (group : PathGroup E) : Visitor E → PathGroup E × Visitor E
  | done => (group, done)
  | savable pathEnd next => (group, next (group.savable d params pathEnd))
  | insert pathEnd next => (group.insert d params pathEnd, next)

end Visitor

/-- The group and the visitors of all endpoints. -/
structure State (E : Type*) where
  group : PathGroup E
  visitors : List (Visitor E)

namespace State

/-- One call of one visitor; done ones stutter. -/
def advance (i : ℕ) (s : State E) : State E :=
  match s.visitors[i]? with
  | none => s
  | some visitor => ⟨(visitor.call d params s.group).1, s.visitors.set i (visitor.call d params s.group).2⟩

def execute : List ℕ → State E → State E
  | [], s => s
  | i :: schedule, s => execute schedule (s.advance d params i)

def finished (s : State E) : Bool := s.visitors.all Visitor.isDone

end State

structure Endpoint where
  vertex : V
  pathEnds : List E
  at_vertex : ∀ pathEnd ∈ pathEnds, d.vertex pathEnd = vertex

def start (sort : List E → List E) (endpoints : List (Endpoint d)) : State E :=
  ⟨params.init, endpoints.map fun endpoint => Visitor.visit d params sort endpoint.pathEnds⟩

end Source

section Selections
variable {E V K R : Type*} [LinearOrder E] [DecidableEq V] [DecidableEq K] (d : PathEndData E V K R)
    (params : GroupParams)

/-- What is saved as long as the threshold is not set. -/
def inWindow (pathEnd : E) : Bool := params.init.savable d params pathEnd

/-- The first end for each crpr tag that is not there yet. -/
def firstOfEach : List K → List E → List E
  | _, [] => []
  | uniqueEnds, pathEnd :: pathEnds =>
    if d.noCrpr pathEnd ∈ uniqueEnds then firstOfEach uniqueEnds pathEnds
    else pathEnd :: firstOfEach (d.noCrpr pathEnd :: uniqueEnds) pathEnds

/-- The worst ends of an endpoint: the worst one, or so many of those with distinct crpr tags. -/
def worstEnds (sort : List E → List E) (pathEnds : List E) : List E :=
  if params.endpointCount = 1 then (pathEnds.filter (inWindow d params)).min?.toList
  else (firstOfEach d [] ((sort pathEnds).filter (inWindow d params))).take params.endpointCount.toNat

end Selections

section Keys

/-- Worse ends have less slack, or arrive later or earlier. -/
def GroupParams.toKey (params : GroupParams) (value : ℚ) : ℚ :=
  if params.compareSlack then value else match params.minMax with
    | .max => -value
    | .min => value

variable {E V K R : Type*} [LinearOrder E] [LinearOrder R] (ends : PathEnds E V K R) (params : GroupParams)

def key (pathEnd : E) : ℚ := params.toKey (PathGroup.measure ends.toPathEndData params pathEnd)

/-- Unconstrained ends are compared by their arrivals; groups for arrivals have no others. -/
def Accepts : Prop := params.compareSlack = false → ∀ pathEnd, ends.isUnconstrained pathEnd = true ∧
    ends.minMax pathEnd = params.minMax

variable {ends params}

omit [LinearOrder E] in
@[simp] theorem init_threshold (params : GroupParams) :
    (params.init : PathGroup E).threshold = params.minMax.initValue := rfl

theorem savable_slack_iff (compares : params.compareSlack = true) {group : PathGroup E} {pathEnd : E} :
    group.savable ends.toPathEndData params pathEnd = true ↔
      (ends.slackNoCrpr pathEnd ≠ params.minMax.initValue ∧ ends.slackNoCrpr pathEnd ≤ group.threshold ∧
        ends.slackNoCrpr pathEnd ≤ params.slackMax) ∧
      ends.slack pathEnd ≤ group.threshold ∧ ends.slack pathEnd ≤ params.slackMax ∧
        params.slackMin ≤ ends.slack pathEnd := by
  rw [PathGroup.savable,if_pos compares]
  split
  case isTrue first => simp [first,and_assoc]
  case isFalse first => simp [first]

theorem savable_arrival_iff (compares : params.compareSlack = false) {group : PathGroup E} {pathEnd : E} :
    group.savable ends.toPathEndData params pathEnd = true ↔ ends.dataArrivalTime pathEnd ≠ params.minMax.initValue ∧
      params.toKey (ends.dataArrivalTime pathEnd) ≤ params.toKey group.threshold := by
  rw [PathGroup.savable,compares,if_neg Bool.false_ne_true,GroupParams.toKey,GroupParams.toKey,compares]
  cases params.minMax <;> simp [MinMax.delayGreaterEqual]

/-- Crpr only increases the slack, so that an end is saved when it is in the window and not above the threshold. -/
theorem savable_iff {group : PathGroup E} (tight : params.toKey group.threshold ≤ params.toKey params.minMax.initValue)
    {pathEnd : E} :
    group.savable ends.toPathEndData params pathEnd = true ↔
      inWindow ends.toPathEndData params pathEnd = true ∧ key ends params pathEnd ≤ params.toKey group.threshold := by
  cases compares : params.compareSlack with
  | true =>
    have crpr := ends.crpr pathEnd
    simp only [GroupParams.toKey,compares,if_true] at tight
    rw [inWindow,savable_slack_iff compares,savable_slack_iff compares,init_threshold]
    simp only [key,PathGroup.measure,GroupParams.toKey,compares,if_true]
    constructor
    · rintro ⟨⟨constrained, first, first'⟩, second, second'⟩
      exact ⟨⟨⟨constrained, first.trans tight, first'⟩, second.trans tight, second'⟩, second⟩
    · rintro ⟨⟨⟨constrained, _, first'⟩, _, second'⟩, le⟩
      exact ⟨⟨constrained, crpr.trans le, first'⟩, le, second'⟩
  | false =>
    have measured : key ends params pathEnd = params.toKey (ends.dataArrivalTime pathEnd) := by
      simp [key,PathGroup.measure,compares]
    rw [inWindow,savable_arrival_iff compares,savable_arrival_iff compares,init_threshold,measured]
    constructor
    · exact fun saved => ⟨⟨saved.1, saved.2.trans tight⟩, saved.2⟩
    · exact fun window => ⟨window.1.1, window.2⟩

theorem key_le_init {pathEnd : E} (window : inWindow ends.toPathEndData params pathEnd = true) :
    key ends params pathEnd ≤ params.toKey params.minMax.initValue :=
  (savable_iff (le_refl (params.toKey (params.init : PathGroup E).threshold)) |>.mp window).2

theorem savable_init {group : PathGroup E} (initial : group.threshold = params.minMax.initValue) (pathEnd : E) :
    group.savable ends.toPathEndData params pathEnd = inWindow ends.toPathEndData params pathEnd := by
  rw [inWindow,PathGroup.savable,PathGroup.savable,initial,init_threshold]

theorem constrained_of_inWindow (compares : params.compareSlack = true) {pathEnd : E}
    (window : inWindow ends.toPathEndData params pathEnd = true) : ends.isUnconstrained pathEnd = false := by
  refine Bool.eq_false_iff.mpr fun unconstrained => ?_
  apply ((savable_slack_iff compares).mp window).1.1
  rw [params.compares compares]
  exact ends.unconstrained unconstrained

theorem compare_neg_neg (x y : ℚ) : compare (-x) (-y) = (compare x y).swap := by
  cases order : compare x y with
  | lt => exact compare_gt_iff_gt.mpr (neg_lt_neg (compare_lt_iff_lt.mp order))
  | eq => exact compare_eq_iff_eq.mpr (congrArg _ (compare_eq_iff_eq.mp order))
  | gt => exact compare_lt_iff_lt.mpr (neg_lt_neg (compare_gt_iff_gt.mp order))

theorem cmpSlack_cases (ends : PathEnds E V K R) (pathEnd1 pathEnd2 : E) :
    ends.cmpSlack pathEnd1 pathEnd2 = compare (ends.slack pathEnd1) (ends.slack pathEnd2) ∨
      ends.slack pathEnd1 = ends.slack pathEnd2 := by
  rw [PathEndData.cmpSlack]
  split
  case h_1 =>
    split
    case isTrue zero => exact Or.inr (zero.1.trans zero.2.symm)
    case isFalse => exact Or.inl rfl
  case h_2 => exact Or.inl rfl

theorem slackCmp_cases (accepts : Accepts ends params) {pathEnd1 : E}
    (window : inWindow ends.toPathEndData params pathEnd1 = true)
    (pathEnd2 : E) : ends.slackCmp pathEnd1 pathEnd2 = compare (key ends params pathEnd1) (key ends params pathEnd2) ∨
      key ends params pathEnd1 = key ends params pathEnd2 := by
  cases compares : params.compareSlack with
  | true =>
    rw [PathEndData.slackCmp,constrained_of_inWindow compares window,if_neg Bool.false_ne_true]
    simp only [key,GroupParams.toKey,PathGroup.measure,compares,if_true]
    exact cmpSlack_cases ends pathEnd1 pathEnd2
  | false =>
    obtain ⟨unconstrained, side⟩ := accepts compares pathEnd1
    rw [PathEndData.slackCmp,unconstrained,if_pos rfl,PathEndData.cmpArrival,side]
    simp only [key,GroupParams.toKey,PathGroup.measure,compares,Bool.false_eq_true,if_false]
    left
    cases params.minMax with
    | min => exact (Std.OrientedOrd.eq_swap).symm
    | max => exact (compare_neg_neg _ _).symm

theorem key_mono (accepts : Accepts ends params) {pathEnd1 pathEnd2 : E}
    (window : inWindow ends.toPathEndData params pathEnd1 = true)
    (le : pathEnd1 ≤ pathEnd2) : key ends params pathEnd1 ≤ key ends params pathEnd2 := by
  obtain less | rfl := le.lt_or_eq
  · obtain same | equal := slackCmp_cases accepts window pathEnd2
    · have order := (ends.less_iff _ _).mp less
      rw [PathEndData.cmp,same] at order
      apply compare_le_iff_le.mp
      intro greater
      rw [greater] at order
      exact Ordering.noConfusion order
    · exact equal.le
  · exact le_rfl

theorem key_le_of_sorted (accepts : Accepts ends params) {pathEnd1 pathEnd2 : E}
    (window : inWindow ends.toPathEndData params pathEnd2 = true) (sorted : ends.slackCmp pathEnd2 pathEnd1 ≠ .lt) :
    key ends params pathEnd1 ≤ key ends params pathEnd2 := by
  obtain same | equal := slackCmp_cases accepts window pathEnd1
  · rw [same] at sorted
    exact compare_ge_iff_ge.mp sorted
  · exact equal.ge

end Keys

section Visitors
variable {E : Type*}

/-- What a visitor inserts when it is given fixed answers. -/
def Visitor.selected (answer : E → Bool) : Visitor E → List E
  | done => []
  | savable pathEnd next => (next (answer pathEnd)).selected answer
  | insert pathEnd next => pathEnd :: next.selected answer

/-- The most ends of some kind that a visitor can insert, whatever the answers. -/
def Visitor.most (kind : E → Bool) : Visitor E → ℕ
  | done => 0
  | savable _ next => max ((next true).most kind) ((next false).most kind)
  | insert pathEnd next => (if kind pathEnd then 1 else 0) + next.most kind

/-- A visitor inserts ends of the window, and when an end of it is refused that changes nothing, or only what is no
worse than that end. -/
inductive Careful {κ : Type*} [LE κ] (window : E → Bool) (key : E → κ) : Visitor E → Prop
  | done : Careful window key .done
  | savable {pathEnd : E} {next : Bool → Visitor E} (saved : window pathEnd = true → Careful window key (next true))
      (refused : Careful window key (next false))
      (exchange : window pathEnd = true → (next true).selected window = (next false).selected window ∨
        ∀ other ∈ (next true).selected window ++ (next false).selected window, key pathEnd ≤ key other) :
      Careful window key (.savable pathEnd next)
  | insert {pathEnd : E} {next : Visitor E} (inside : window pathEnd = true) (rest : Careful window key next) :
      Careful window key (.insert pathEnd next)

theorem Careful.of_savable {κ : Type*} [LE κ] {window : E → Bool} {key : E → κ} {pathEnd : E} {next : Bool → Visitor E}
    (careful : Careful window key (.savable pathEnd next)) :
    (window pathEnd = true → Careful window key (next true)) ∧ Careful window key (next false) ∧
      (window pathEnd = true → (next true).selected window = (next false).selected window ∨
        ∀ other ∈ (next true).selected window ++ (next false).selected window, key pathEnd ≤ key other) := by
  cases careful with
  | savable saved refused exchange => exact ⟨saved, refused, exchange⟩

theorem Careful.of_insert {κ : Type*} [LE κ] {window : E → Bool} {key : E → κ} {pathEnd : E} {next : Visitor E}
    (careful : Careful window key (.insert pathEnd next)) : window pathEnd = true ∧ Careful window key next := by
  cases careful with
  | insert inside rest => exact ⟨inside, rest⟩

theorem Careful.window {κ : Type*} [LE κ] {window : E → Bool} {key : E → κ} {visitor : Visitor E}
    (careful : Careful window key visitor) :
    ∀ pathEnd ∈ visitor.selected window, window pathEnd = true := by
  induction careful with
  | done => exact fun _ mem => absurd mem List.not_mem_nil
  | @savable pathEnd next _ _ _ saved refused =>
    rw [Visitor.selected]
    cases inside : window pathEnd with
    | true => exact saved inside
    | false => exact refused
  | insert inside _ ih => exact List.forall_mem_cons.mpr ⟨inside, ih⟩

section Worst
variable [LinearOrder E] {κ : Type*} [LinearOrder κ] {window : E → Bool} {key : E → κ}

theorem keepWorst_some (pathEnd worst : E) : Visitor.keepWorst pathEnd (some worst) = min worst pathEnd := by
  rw [Visitor.keepWorst,min_comm,min_def_lt]

theorem selected_makePathEnds1 (pathEnds : List E) (worstEnd : Option E) :
    (Visitor.makePathEnds1 pathEnds worstEnd).selected window =
    (worstEnd.toList ++ pathEnds.filter window).min?.toList := by
  induction pathEnds generalizing worstEnd with
  | nil => cases worstEnd <;> rfl
  | cons pathEnd pathEnds ih =>
    rw [Visitor.makePathEnds1,Visitor.selected]
    cases inside : window pathEnd with
    | false => rw [if_neg Bool.false_ne_true,ih,List.filter_cons_of_neg (by simp [inside])]
    | true =>
      rw [if_pos rfl,ih,List.filter_cons_of_pos inside]
      cases worstEnd with
      | none => rfl
      | some worst =>
        rw [Option.toList_some,Option.toList_some,List.singleton_append,List.singleton_append,List.min?_cons',
          List.min?_cons',List.foldl_cons,keepWorst_some]

theorem min?_exchange (pathEnd : E) (pathEnds : List E) : (pathEnd :: pathEnds).min? = pathEnds.min? ∨
    (pathEnd :: pathEnds).min? = some pathEnd ∧ ∀ other ∈ pathEnds, pathEnd ≤ other := by
  by_cases least : ∀ other ∈ pathEnds, pathEnd ≤ other
  · exact Or.inr ⟨List.min?_eq_some_iff.mpr ⟨List.mem_cons_self, List.forall_mem_cons.mpr ⟨le_rfl, least⟩⟩, least⟩
  · left
    cases found : pathEnds.min? with
    | none =>
      rw [List.min?_eq_none_iff.mp found] at least
      exact absurd (fun _ mem => absurd mem List.not_mem_nil) least
    | some worst =>
      obtain ⟨mem, le⟩ := List.min?_eq_some_iff.mp found
      push Not at least
      obtain ⟨other, mem', less⟩ := least
      apply List.min?_eq_some_iff.mpr
      exact ⟨List.mem_cons_of_mem _ mem, List.forall_mem_cons.mpr ⟨(le other mem').trans less.le, le⟩⟩

theorem careful_makePathEnds1
    (mono : ∀ {pathEnd other : E}, window pathEnd = true → pathEnd ≤ other → key pathEnd ≤ key other)
    (pathEnds : List E) (worstEnd : Option E) (inside : ∀ worst ∈ worstEnd, window worst = true) :
    Careful window key (Visitor.makePathEnds1 pathEnds worstEnd) := by
  induction pathEnds generalizing worstEnd with
  | nil =>
    cases worstEnd with
    | none => exact .done
    | some worst => exact .insert (inside worst rfl) .done
  | cons pathEnd pathEnds ih =>
    rw [Visitor.makePathEnds1]
    refine .savable (fun window' => ?_) (ih worstEnd inside) fun window' => ?_
    · rw [if_pos rfl]
      apply ih
      intro worst mem
      rw [← Option.some.inj mem]
      cases worstEnd with
      | none => exact window'
      | some before =>
        rw [Visitor.keepWorst]
        split
        case isTrue => exact window'
        case isFalse => exact inside before rfl
    · rw [if_pos rfl,if_neg Bool.false_ne_true,selected_makePathEnds1,selected_makePathEnds1]
      have kept : ((some (Visitor.keepWorst pathEnd worstEnd)).toList ++ pathEnds.filter window).min? =
          (pathEnd :: (worstEnd.toList ++ pathEnds.filter window)).min? := by
        cases worstEnd with
        | none => rfl
        | some worst => rw [keepWorst_some,min_comm]; rfl
      rw [kept]
      obtain same | ⟨least, le⟩ := min?_exchange pathEnd (worstEnd.toList ++ pathEnds.filter window)
      · exact Or.inl (congrArg Option.toList same)
      · right
        intro other mem
        apply mono window'
        rw [least] at mem
        obtain rfl | mem := List.mem_cons.mp mem
        · exact le_rfl
        · exact le other (List.min?_mem (Option.mem_toList.mp mem))

end Worst

section Each
variable {V K R κ : Type*} [DecidableEq K] [Preorder κ] {window : E → Bool} {key : E →
    κ} (d : PathEndData E V K R) (params : GroupParams)

theorem firstOfEach_subset (uniqueEnds : List K) (pathEnds : List E) :
    firstOfEach d uniqueEnds pathEnds ⊆ pathEnds := by
  induction pathEnds generalizing uniqueEnds with
  | nil => exact List.Subset.refl _
  | cons pathEnd pathEnds ih =>
    rw [firstOfEach]
    split
    case isTrue => exact List.subset_cons_of_subset _ (ih uniqueEnds)
    case isFalse => exact List.cons_subset_cons _ (ih _)

/-- The first ends with distinct crpr tags, as many as are still to be inserted. -/
theorem selected_makePathEndsAll (pathEnds : List E) (uniqueEnds : List K) (n : ℕ) :
    (Visitor.makePathEndsAll d params pathEnds uniqueEnds n).selected window =
      (firstOfEach d uniqueEnds (pathEnds.filter window)).take (params.endpointCount.toNat - n) := by
  induction pathEnds generalizing uniqueEnds n with
  | nil => simp [Visitor.makePathEndsAll,Visitor.selected,firstOfEach]
  | cons pathEnd pathEnds ih =>
    rw [Visitor.makePathEndsAll]
    split
    case isFalse full =>
      have none_left : params.endpointCount.toNat - n = 0 := by omega
      rw [none_left,List.take_zero,Visitor.selected]
    case isTrue room =>
      have left : params.endpointCount.toNat - n = params.endpointCount.toNat - (n + 1) + 1 := by omega
      by_cases there : d.noCrpr pathEnd ∈ uniqueEnds
      · rw [if_pos there,ih]
        cases inside : window pathEnd with
        | false => rw [List.filter_cons_of_neg (by simp [inside])]
        | true => rw [List.filter_cons_of_pos inside,firstOfEach,if_pos there]
      · rw [if_neg there,Visitor.selected]
        cases inside : window pathEnd with
        | false => rw [if_neg Bool.false_ne_true,ih,List.filter_cons_of_neg (by simp [inside])]
        | true =>
          rw [if_pos rfl,Visitor.selected,ih,List.filter_cons_of_pos inside,firstOfEach,if_neg there,left,
            List.take_succ_cons]

theorem careful_makePathEndsAll (pathEnds : List E) (uniqueEnds : List K) (n : ℕ)
    (sorted : pathEnds.Pairwise fun pathEnd other => window other = true → key pathEnd ≤ key other) :
    Careful window key (Visitor.makePathEndsAll d params pathEnds uniqueEnds n) := by
  induction pathEnds generalizing uniqueEnds n with
  | nil => exact .done
  | cons pathEnd pathEnds ih =>
    obtain ⟨first, rest⟩ := List.pairwise_cons.mp sorted
    -- what is selected behind this end comes from behind it
    have behind (uniqueEnds : List K) (n : ℕ) :
        ∀ other ∈ (Visitor.makePathEndsAll d params pathEnds uniqueEnds n).selected window,
          key pathEnd ≤ key other := by
      intro other mem
      rw [selected_makePathEndsAll] at mem
      obtain ⟨mem, inside⟩ := List.mem_filter.mp (firstOfEach_subset d _ _ (List.mem_of_mem_take mem))
      exact first other mem inside
    rw [Visitor.makePathEndsAll]
    split
    case isFalse => exact .done
    case isTrue =>
      split
      case isTrue => exact ih uniqueEnds n rest
      case isFalse =>
        refine .savable (fun inside => ?_) (ih uniqueEnds n rest) fun _ => Or.inr ?_
        · rw [if_pos rfl]
          exact .insert inside (ih _ _ rest)
        · intro other mem
          rw [if_pos rfl,if_neg Bool.false_ne_true,Visitor.selected] at mem
          obtain mem | mem := List.mem_append.mp mem
          · obtain rfl | mem := List.mem_cons.mp mem
            · exact le_rfl
            · exact behind _ _ other mem
          · exact behind _ _ other mem

end Each

section Counts
variable [LinearOrder E] {V K R : Type*} [DecidableEq K] (d : PathEndData E V K R) (params : GroupParams)
    {kind : E → Bool}

theorem most_makePathEnds1 (kind : E → Bool) (pathEnds : List E) (worstEnd : Option E) :
    (Visitor.makePathEnds1 pathEnds worstEnd).most kind ≤ 1 := by
  induction pathEnds generalizing worstEnd with
  | nil =>
    cases worstEnd with
    | none => exact Nat.zero_le _
    | some worst =>
      rw [Visitor.makePathEnds1,Visitor.insertWorst,Visitor.most,Visitor.most]
      split <;> simp
  | cons pathEnd pathEnds ih =>
    rw [Visitor.makePathEnds1,Visitor.most]
    exact max_le (ih _) (ih _)

omit [LinearOrder E] in
theorem most_makePathEndsAll (kind : E → Bool) (pathEnds : List E) (uniqueEnds : List K) (n : ℕ) :
    (Visitor.makePathEndsAll d params pathEnds uniqueEnds n).most kind ≤ params.endpointCount.toNat - n := by
  induction pathEnds generalizing uniqueEnds n with
  | nil => exact Nat.zero_le _
  | cons pathEnd pathEnds ih =>
    rw [Visitor.makePathEndsAll]
    split
    case isFalse => exact Nat.zero_le _
    case isTrue room =>
      split
      case isTrue => exact ih uniqueEnds n
      case isFalse =>
        rw [Visitor.most,if_pos rfl,if_neg Bool.false_ne_true,Visitor.most]
        have saved := ih (d.noCrpr pathEnd :: uniqueEnds) (n + 1)
        have refused := ih uniqueEnds n
        split <;> omega

theorem most_makePathEnds1_eq_zero (pathEnds : List E) (worstEnd : Option E)
    (others : ∀ pathEnd ∈ pathEnds, kind pathEnd = false) (other : ∀ worst ∈ worstEnd, kind worst = false) :
    (Visitor.makePathEnds1 pathEnds worstEnd).most kind = 0 := by
  induction pathEnds generalizing worstEnd with
  | nil =>
    cases worstEnd with
    | none => rfl
    | some worst => simp [Visitor.makePathEnds1,Visitor.insertWorst,Visitor.most,other worst rfl]
  | cons pathEnd pathEnds ih =>
    obtain ⟨first, rest⟩ := List.forall_mem_cons.mp others
    rw [Visitor.makePathEnds1,Visitor.most,if_pos rfl,if_neg Bool.false_ne_true,ih worstEnd rest other]
    rw [ih (some (Visitor.keepWorst pathEnd worstEnd)) rest,max_self]
    intro worst mem
    rw [← Option.some.inj mem]
    cases worstEnd with
    | none => exact first
    | some before =>
      rw [Visitor.keepWorst]
      split
      case isTrue => exact first
      case isFalse => exact other before rfl

omit [LinearOrder E] in
theorem most_makePathEndsAll_eq_zero (pathEnds : List E) (uniqueEnds : List K) (n : ℕ)
    (others : ∀ pathEnd ∈ pathEnds, kind pathEnd = false) :
    (Visitor.makePathEndsAll d params pathEnds uniqueEnds n).most kind = 0 := by
  induction pathEnds generalizing uniqueEnds n with
  | nil => rfl
  | cons pathEnd pathEnds ih =>
    obtain ⟨first, rest⟩ := List.forall_mem_cons.mp others
    rw [Visitor.makePathEndsAll]
    split
    case isFalse => rfl
    case isTrue =>
      split
      case isTrue => exact ih uniqueEnds n rest
      case isFalse => simp [Visitor.most,first,ih _ _ rest]

theorem most_visit (sort : List E → List E) (kind : E → Bool) (pathEnds : List E) :
    ((Visitor.visit d params sort pathEnds).most kind : ℤ) ≤ params.endpointCount := by
  have pos := params.endpointCount_pos
  rw [Visitor.visit]
  split
  case isTrue one =>
    have := most_makePathEnds1 kind pathEnds none
    omega
  case isFalse =>
    have := most_makePathEndsAll d params kind (sort pathEnds) [] 0
    omega

end Counts

end Visitors
end GTPower.PathGroups
