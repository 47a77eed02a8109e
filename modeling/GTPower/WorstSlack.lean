import Mathlib.Data.List.Sort
import Mathlib.Order.BoundedOrder.Basic

/-! The worst slack of one analysis point: a set of endpoints at or below a threshold, and the worst of them when it is
known. Sets are in the order of the vertex ids; `⊤` is the initial value. -/
namespace GTPower

section Sets

variable {V : Type*} [LinearOrder V]

theorem lawfulBEq_vertex : LawfulBEq V := inferInstance

attribute [local instance] lawfulBEq_vertex

def insertVertex (set : List V) (v : V) : List V := if v ∈ set then set else set.orderedInsert (· ≤ ·) v

def eraseVertex (set : List V) (v : V) : List V := set.filter (· ≠ v)

@[simp] theorem mem_insertVertex {set : List V} {v u : V} : u ∈ insertVertex set v ↔ u = v ∨ u ∈ set := by
  unfold insertVertex
  split
  · next mem =>
    constructor
    · exact .inr
    · rintro (rfl | found)
      · exact mem
      · exact found
  · exact List.mem_orderedInsert _

@[simp] theorem mem_eraseVertex {set : List V} {v u : V} : u ∈ eraseVertex set v ↔ u ∈ set ∧ u ≠ v := by
  simp [eraseVertex]

theorem nodup_insertVertex {set : List V} (distinct : set.Nodup) (v : V) : (insertVertex set v).Nodup := by
  unfold insertVertex
  split
  · exact distinct
  · next new => exact (List.perm_orderedInsert _ v set).nodup_iff.2 (List.nodup_cons.2 ⟨new, distinct⟩)

theorem nodup_eraseVertex {set : List V} (distinct : set.Nodup) (v : V) : (eraseVertex set v).Nodup := distinct.filter _

end Sets

structure WorstSlack (V S : Type*) where
  worstVertex : Option V
  worstSlack : S
  slackThreshold : S
  queue : List V
  maxQueueSize : Nat

namespace WorstSlack

variable {V S : Type*} [LinearOrder V] [LinearOrder S] [OrderTop S]

section Source

def minQueueSize : Nat := 10

def new : WorstSlack V S := ⟨none, ⊤, ⊤, [], 20⟩

def setWorstSlack (w : WorstSlack V S) (v : V) (slack : S) : WorstSlack V S :=
  { w with worstVertex := some v, worstSlack := slack }

def forgetWorst (w : WorstSlack V S) : WorstSlack V S := { w with worstVertex := none, worstSlack := ⊤ }

def deleteVertexBefore (w : WorstSlack V S) (v : V) : WorstSlack V S :=
  let w := if w.worstVertex = some v then forgetWorst w else w
  { w with queue := eraseVertex w.queue v }

variable (wnsSlack : V → S)

def setIfWorse (w : WorstSlack V S) (v : V) : WorstSlack V S :=
  if wnsSlack v < w.worstSlack then setWorstSlack w v (wnsSlack v) else w

def findWorstInQueue (w : WorstSlack V S) : WorstSlack V S := w.queue.foldl (setIfWorse wnsSlack) (forgetWorst w)

/-- Keeps the worst vertices up to the threshold that the sorted queue sets. -/
def sortQueue (w : WorstSlack V S) : WorstSlack V S :=
  match w.queue.insertionSort fun a b => wnsSlack a ≤ wnsSlack b with
  | [] => w
  | worst :: rest =>
    let thresholdVertex := ((worst :: rest)[min minQueueSize rest.length]?).getD worst
    let queue := ((worst :: rest).takeWhile fun v => wnsSlack v ≤ wnsSlack thresholdVertex).foldl insertVertex []
    { worstVertex := some worst
      worstSlack := wnsSlack worst
      slackThreshold := wnsSlack thresholdVertex
      queue := queue
      maxQueueSize := queue.length * 2 }

def initVertex (w : WorstSlack V S) (v : V) : WorstSlack V S :=
  if wnsSlack v = ⊤ then w
  else
    let w := setIfWorse wnsSlack w v
    let w := if wnsSlack v ≤ w.slackThreshold then { w with queue := insertVertex w.queue v } else w
    if w.maxQueueSize ≤ w.queue.length then sortQueue wnsSlack w else w

def initQueue (endpoints : List V) (w : WorstSlack V S) : WorstSlack V S :=
  endpoints.foldl (initVertex wnsSlack) { forgetWorst w with slackThreshold := ⊤, queue := [] }

def findWorstSlack (endpoints : List V) (w : WorstSlack V S) : WorstSlack V S :=
  if w.worstVertex = none then
    if w.queue = [] then initQueue wnsSlack endpoints w else findWorstInQueue wnsSlack w
  else w

/-- A worst vertex that got better is no longer known to be the worst. -/
def updateWorstSlack (w : WorstSlack V S) (v : V) (slack : S) : WorstSlack V S :=
  let next :=
    if w.worstVertex.isSome ∧ slack < w.worstSlack then setWorstSlack w v slack
    else if w.worstVertex = some v then { w with worstVertex := none }
    else w
  { next with queue := if slack ≠ ⊤ ∧ slack ≤ w.slackThreshold then insertVertex w.queue v else eraseVertex w.queue v }

end Source

/-- The state is right about the endpoints, those that changed since aside. -/
structure Accurate (endpoints : List V) (wnsSlack : V → S) (changed : V → Prop) (w : WorstSlack V S) : Prop where
  held : ∀ v, v ∈ w.queue ∨ w.worstVertex = some v → v ∈ endpoints
  queue : ∀ v, ¬ changed v → (v ∈ w.queue ↔ v ∈ endpoints ∧ wnsSlack v ≠ ⊤ ∧ wnsSlack v ≤ w.slackThreshold)
  worst : ∀ v, w.worstVertex = some v → ¬ changed v → wnsSlack v = w.worstSlack
  least : w.worstVertex.isSome → ∀ u ∈ endpoints, ¬ changed u → w.worstSlack ≤ wnsSlack u

/-- The answer to a query: the least slack of the endpoints and an endpoint that has it, or the initial value. -/
structure IsWorst (endpoints : List V) (wnsSlack : V → S) (answer : S × Option V) : Prop where
  least : ∀ u ∈ endpoints, answer.1 ≤ wnsSlack u
  attained : ∀ v, answer.2 = some v → v ∈ endpoints ∧ wnsSlack v = answer.1
  none : answer.2 = none → answer.1 = ⊤

def Fresh (w : WorstSlack V S) : Prop := w.worstVertex = none ∧ w.queue = [] ∧ w.slackThreshold = ⊤

section Updates

variable {endpoints : List V} {wnsSlack : V → S} {changed : V → Prop} {w : WorstSlack V S} {v : V}

omit [LinearOrder V] in
theorem Accurate.mono {changed' : V → Prop} (accurate : Accurate endpoints wnsSlack changed w)
    (sub : ∀ u, changed u → changed' u) :
    Accurate endpoints wnsSlack changed' w :=
  ⟨accurate.held, fun u same => accurate.queue u fun was => same (sub u was),
    fun u worst same => accurate.worst u worst fun was => same (sub u was),
    fun known u mem same => accurate.least known u mem fun was => same (sub u was)⟩

theorem mem_queue_updateWorstSlack (slack : S) {u : V} :
    u ∈ (updateWorstSlack w v slack).queue ↔ if u = v then slack ≠ ⊤ ∧ slack ≤ w.slackThreshold else u ∈ w.queue := by
  simp only [updateWorstSlack]
  by_cases same : u = v
  · subst same
    split
    · next low => simp [low]
    · next high => simpa using high
  · split <;> simp [same]

@[simp] theorem slackThreshold_updateWorstSlack (slack : S) :
    (updateWorstSlack w v slack).slackThreshold = w.slackThreshold := by
  simp only [updateWorstSlack]
  split
  · rfl
  · split <;> rfl

/-- The vertex becomes the worst one, or it was the worst one and is not any more, or the worst one stays. -/
theorem worst_updateWorstSlack (w : WorstSlack V S) (v : V) (slack : S) :
    ((updateWorstSlack w v slack).worstVertex = some v ∧ w.worstVertex.isSome ∧ slack < w.worstSlack ∧
        (updateWorstSlack w v slack).worstSlack = slack) ∨
      (updateWorstSlack w v slack).worstVertex = none ∨
      ((updateWorstSlack w v slack).worstVertex = w.worstVertex ∧ w.worstVertex ≠ some v ∧
        (w.worstVertex.isSome → w.worstSlack ≤ slack) ∧ (updateWorstSlack w v slack).worstSlack = w.worstSlack) := by
  simp only [updateWorstSlack]
  split
  · next worse => exact .inl ⟨rfl, worse.1, worse.2, rfl⟩
  · next better =>
    split
    · exact .inr (.inl rfl)
    · next other => exact .inr (.inr ⟨rfl, other, fun known => not_lt.1 fun less => better ⟨known, less⟩, rfl⟩)

theorem Accurate.updateWorstSlack (accurate : Accurate endpoints wnsSlack changed w) (mem : v ∈ endpoints) :
    Accurate endpoints wnsSlack (fun u => changed u ∧ u ≠ v) (updateWorstSlack w v (wnsSlack v)) := by
  have worstCases := worst_updateWorstSlack w v (wnsSlack v)
  constructor
  · intro u holds
    by_cases same : u = v
    · exact same ▸ mem
    · refine accurate.held u ?_
      rcases holds with inQueue | worst
      · rw [mem_queue_updateWorstSlack,if_neg same] at inQueue
        exact .inl inQueue
      · rcases worstCases with ⟨here, _⟩ | gone | ⟨kept, _⟩
        · rw [here] at worst
          exact absurd (Option.some.inj worst).symm same
        · rw [gone] at worst
          cases worst
        · exact .inr (kept ▸ worst)
  · intro u settled
    rw [slackThreshold_updateWorstSlack,mem_queue_updateWorstSlack]
    by_cases same : u = v
    · subst same
      simp [mem]
    · rw [if_neg same]
      exact accurate.queue u fun was => settled ⟨was, same⟩
  · intro u worst settled
    rcases worstCases with ⟨here, _, _, slack⟩ | gone | ⟨kept, other, _, slack⟩
    · rw [here] at worst
      cases worst
      exact slack.symm
    · rw [gone] at worst
      cases worst
    · rw [kept] at worst
      have ne : u ≠ v := fun same => other (same ▸ worst)
      rw [slack]
      exact accurate.worst u worst fun was => settled ⟨was, ne⟩
  · intro known u memU settled
    rcases worstCases with ⟨_, before, less, slack⟩ | gone | ⟨kept, _, bound, slack⟩
    · rw [slack]
      by_cases same : u = v
      · rw [same]
      · exact less.le.trans (accurate.least before u memU fun was => settled ⟨was, same⟩)
    · rw [gone] at known
      cases known
    · rw [kept] at known
      rw [slack]
      by_cases same : u = v
      · rw [same]
        exact bound known
      · exact accurate.least known u memU fun was => settled ⟨was, same⟩

omit [LinearOrder V] in
/-- A state that was asked nothing is right when all that it would have to know is marked. -/
theorem Fresh.accurate (fresh : w.Fresh) (all : ∀ u ∈ endpoints, wnsSlack u ≠ ⊤ → changed u) :
    Accurate endpoints wnsSlack changed w := by
  obtain ⟨noWorst, noQueue, _⟩ := fresh
  constructor
  · rintro u (queued | worst)
    · rw [noQueue] at queued
      cases queued
    · rw [noWorst] at worst
      cases worst
  · intro u unmarked
    rw [noQueue]
    refine iff_of_false List.not_mem_nil ?_
    rintro ⟨mem, finite, _⟩
    exact unmarked (all u mem finite)
  · intro u worst
    rw [noWorst] at worst
    cases worst
  · intro known
    rw [noWorst] at known
    cases known

theorem Fresh.updateWorstSlack (fresh : w.Fresh) (v : V) : (updateWorstSlack w v ⊤).Fresh := by
  obtain ⟨noWorst, noQueue, threshold⟩ := fresh
  simp [WorstSlack.updateWorstSlack,WorstSlack.Fresh,noWorst,noQueue,threshold,eraseVertex]

omit [LinearOrder V] in
theorem Accurate.change {wnsSlack' : V → S} {endpoints' : List V} {changed' : V → Prop}
    (accurate : Accurate endpoints wnsSlack changed w) (sub : ∀ u ∈ endpoints, u ∈ endpoints')
    (same : ∀ u, ¬ changed' u → ¬ changed u ∧ wnsSlack' u = wnsSlack u ∧ (u ∈ endpoints' ↔ u ∈ endpoints)) :
    Accurate endpoints' wnsSlack' changed' w := by
  constructor
  · exact fun u holds => sub u (accurate.held u holds)
  · intro u settled
    obtain ⟨was, slack, member⟩ := same u settled
    rw [slack,member]
    exact accurate.queue u was
  · intro u worst settled
    obtain ⟨was, slack, _⟩ := same u settled
    rw [slack]
    exact accurate.worst u worst was
  · intro known u mem settled
    obtain ⟨was, slack, member⟩ := same u settled
    rw [slack]
    exact accurate.least known u (member.1 mem) was

/-- A vertex that the point does not hold may lose its slack or stop being an endpoint. -/
theorem Accurate.drop {wnsSlack' : V → S} {endpoints' : List V} {changed' : V → Prop}
    (accurate : Accurate endpoints wnsSlack changed w) (notQueued : v ∉ w.queue) (notWorst : w.worstVertex ≠ some v)
    (gone : v ∉ endpoints' ∨ wnsSlack' v = ⊤)
    (same : ∀ u, u ≠ v → (¬ changed' u → ¬ changed u) ∧ wnsSlack' u = wnsSlack u ∧ (u ∈ endpoints' ↔ u ∈ endpoints)) :
    Accurate endpoints' wnsSlack' changed' w := by
  constructor
  · intro u holds
    have ne : u ≠ v := by
      rintro rfl
      exact holds.elim notQueued notWorst
    exact (same u ne).2.2.2 (accurate.held u holds)
  · intro u settled
    by_cases here : u = v
    · subst here
      refine iff_of_false notQueued ?_
      rintro ⟨mem, finite, _⟩
      exact gone.elim (fun out => out mem) finite
    · obtain ⟨was, slack, member⟩ := same u here
      rw [slack,member]
      exact accurate.queue u (was settled)
  · intro u worst settled
    have ne : u ≠ v := by
      rintro rfl
      exact notWorst worst
    obtain ⟨was, slack, _⟩ := same u ne
    rw [slack]
    exact accurate.worst u worst (was settled)
  · intro known u mem settled
    by_cases here : u = v
    · subst here
      rcases gone with out | top
      · exact absurd mem out
      · rw [top]
        exact le_top
    · obtain ⟨was, slack, member⟩ := same u here
      rw [slack]
      exact accurate.least known u (member.1 mem) (was settled)

theorem deleteVertexBefore_holds : v ∉ (deleteVertexBefore w v).queue ∧
    (deleteVertexBefore w v).worstVertex ≠ some v := by
  constructor
  · simp [deleteVertexBefore]
  · simp only [deleteVertexBefore]
    split
    · simp [forgetWorst]
    · next other => exact other

theorem Accurate.deleteVertexBefore (accurate : Accurate endpoints wnsSlack changed w) :
    Accurate endpoints wnsSlack (fun u => changed u ∨ u = v) (deleteVertexBefore w v) := by
  have queue : ∀ u, u ∈ (WorstSlack.deleteVertexBefore w v).queue ↔ u ∈ w.queue ∧ u ≠ v := by
    intro u
    simp only [WorstSlack.deleteVertexBefore]
    split <;> simp [forgetWorst]
  have threshold : (WorstSlack.deleteVertexBefore w v).slackThreshold = w.slackThreshold := by
    simp only [WorstSlack.deleteVertexBefore]
    split <;> rfl
  have worst : (WorstSlack.deleteVertexBefore w v).worstVertex = none ∨
      ((WorstSlack.deleteVertexBefore w v).worstVertex = w.worstVertex ∧
        (WorstSlack.deleteVertexBefore w v).worstSlack = w.worstSlack) := by
    simp only [WorstSlack.deleteVertexBefore]
    split
    · exact .inl rfl
    · exact .inr ⟨rfl, rfl⟩
  constructor
  · intro u holds
    refine accurate.held u ?_
    rcases holds with inQueue | isWorst
    · exact .inl ((queue u).1 inQueue).1
    · rcases worst with gone | ⟨kept, _⟩
      · rw [gone] at isWorst
        cases isWorst
      · exact .inr (kept ▸ isWorst)
  · intro u settled
    rw [not_or] at settled
    rw [queue,threshold,and_iff_left settled.2]
    exact accurate.queue u settled.1
  · intro u isWorst settled
    rw [not_or] at settled
    rcases worst with gone | ⟨kept, slack⟩
    · rw [gone] at isWorst
      cases isWorst
    · rw [slack]
      exact accurate.worst u (kept ▸ isWorst) settled.1
  · intro known u mem settled
    rw [not_or] at settled
    rcases worst with gone | ⟨kept, slack⟩
    · rw [gone] at known
      cases known
    · rw [slack]
      exact accurate.least (kept ▸ known) u mem settled.1

end Updates

section Queries

variable {endpoints : List V} {wnsSlack : V → S} {w : WorstSlack V S} {v : V}

omit [LinearOrder V] [OrderTop S] in
theorem foldl_setIfWorse (wnsSlack : V → S) (vertices : List V) (w : WorstSlack V S) :
    let next := vertices.foldl (setIfWorse wnsSlack) w
    next.queue = w.queue ∧ next.slackThreshold = w.slackThreshold ∧ next.worstSlack ≤ w.worstSlack ∧
      (∀ u ∈ vertices, next.worstSlack ≤ wnsSlack u) ∧
      ((next.worstVertex = w.worstVertex ∧ next.worstSlack = w.worstSlack) ∨
        ∃ v ∈ vertices, next.worstVertex = some v ∧ wnsSlack v = next.worstSlack) := by
  induction vertices generalizing w with
  | nil => exact ⟨rfl, rfl, le_rfl, by simp, .inl ⟨rfl, rfl⟩⟩
  | cons v rest ih =>
    obtain ⟨queue, threshold, below, least, found⟩ := ih (setIfWorse wnsSlack w v)
    have step : (setIfWorse wnsSlack w v).queue = w.queue ∧
      (setIfWorse wnsSlack w v).slackThreshold = w.slackThreshold ∧
        (setIfWorse wnsSlack w v).worstSlack ≤ w.worstSlack ∧ (setIfWorse wnsSlack w v).worstSlack ≤ wnsSlack v ∧
        (setIfWorse wnsSlack w v = w ∨
          ((setIfWorse wnsSlack w v).worstVertex = some v ∧ wnsSlack v = (setIfWorse wnsSlack w v).worstSlack)) := by
      unfold setIfWorse
      split
      · next less => exact ⟨rfl, rfl, less.le, le_rfl, .inr ⟨rfl, rfl⟩⟩
      · next notLess => exact ⟨rfl, rfl, le_rfl, not_lt.1 notLess, .inl rfl⟩
    refine ⟨queue.trans step.1, threshold.trans step.2.1, below.trans step.2.2.1, ?_, ?_⟩
    · intro u mem
      rcases List.mem_cons.1 mem with rfl | mem
      · exact below.trans step.2.2.2.1
      · exact least u mem
    · rcases found with ⟨vertex, slack⟩ | ⟨u, mem, worst⟩
      · rcases step.2.2.2.2 with same | ⟨here, value⟩
        · exact .inl ⟨vertex.trans (congrArg WorstSlack.worstVertex same),
            slack.trans (congrArg WorstSlack.worstSlack same)⟩
        · exact .inr ⟨v, List.mem_cons_self, vertex.trans here, value.trans slack.symm⟩
      · exact .inr ⟨u, List.mem_cons_of_mem _ mem, worst⟩

omit [LinearOrder V] [OrderTop S] in
theorem mem_takeWhile_le {vertices : List V} {threshold : S}
    (sorted : vertices.Pairwise fun a b => wnsSlack a ≤ wnsSlack b) {u : V} :
    u ∈ (vertices.takeWhile fun v => wnsSlack v ≤ threshold) ↔ u ∈ vertices ∧ wnsSlack u ≤ threshold := by
  induction vertices with
  | nil => simp
  | cons v rest ih =>
    obtain ⟨first, tail⟩ := List.pairwise_cons.1 sorted
    by_cases low : wnsSlack v ≤ threshold
    · simp only [List.takeWhile_cons,low,decide_true,if_true,List.mem_cons,ih tail]
      constructor
      · rintro (rfl | ⟨mem, le⟩)
        · exact ⟨.inl rfl, low⟩
        · exact ⟨.inr mem, le⟩
      · rintro ⟨rfl | mem, le⟩
        · exact .inl rfl
        · exact .inr ⟨mem, le⟩
    · simp only [List.takeWhile_cons,low,decide_false,Bool.false_eq_true,if_false,List.not_mem_nil,
        List.mem_cons,false_iff]
      rintro ⟨rfl | mem, le⟩
      · exact low le
      · exact low ((first u mem).trans le)

theorem mem_foldl_insertVertex {vertices set : List V} {u : V} : u ∈ vertices.foldl insertVertex set ↔ u ∈ vertices ∨
    u ∈ set := by
  induction vertices generalizing set with
  | nil => simp
  | cons v rest ih =>
    rw [List.foldl_cons,ih,mem_insertVertex,List.mem_cons]
    tauto

/-- Right about the vertices walked over, with the worst of them known if there is one. -/
structure Built (done : List V) (wnsSlack : V → S) (w : WorstSlack V S) : Prop where
  accurate : Accurate done wnsSlack (fun _ => False) w
  unknown : w.worstVertex = none → w.worstSlack = ⊤ ∧ ∀ u ∈ done, wnsSlack u = ⊤

theorem Built.sortQueue (built : Built endpoints wnsSlack w) : Built endpoints wnsSlack (sortQueue wnsSlack w) := by
  have queue : ∀ u, u ∈ w.queue ↔ u ∈ endpoints ∧ wnsSlack u ≠ ⊤ ∧ wnsSlack u ≤ w.slackThreshold :=
    fun u => built.accurate.queue u not_false
  have perm := List.perm_insertionSort (fun a b => wnsSlack a ≤ wnsSlack b) w.queue
  have ordered : (w.queue.insertionSort fun a b => wnsSlack a ≤ wnsSlack b).Pairwise fun a b =>
    wnsSlack a ≤ wnsSlack b :=
    List.pairwise_insertionSort _ _
  unfold WorstSlack.sortQueue
  cases sorted : w.queue.insertionSort fun a b => wnsSlack a ≤ wnsSlack b with
  | nil => exact built
  | cons worst rest =>
    rw [sorted] at perm ordered
    dsimp only
    set thresholdVertex := ((worst :: rest)[min minQueueSize rest.length]?).getD worst with isThreshold
    have inSorted : thresholdVertex ∈ worst :: rest := by
      rw [isThreshold]
      cases at' : (worst :: rest)[min minQueueSize rest.length]? with
      | none => exact List.mem_cons_self
      | some u => exact List.mem_of_getElem? at'
    have below : wnsSlack thresholdVertex ≤ w.slackThreshold := ((queue _).1 (perm.mem_iff.1 inSorted)).2.2
    have worstQueued := (queue worst).1 (perm.mem_iff.1 List.mem_cons_self)
    have member : ∀ u, u ∈ ((worst :: rest).takeWhile fun v => wnsSlack v ≤ wnsSlack thresholdVertex).foldl
      insertVertex [] ↔
        u ∈ w.queue ∧ wnsSlack u ≤ wnsSlack thresholdVertex := by
      intro u
      rw [mem_foldl_insertVertex,mem_takeWhile_le ordered,perm.mem_iff]
      simp
    refine ⟨⟨?_, ?_, ?_, ?_⟩, fun unknown => by cases unknown⟩
    · rintro u (mem | isWorst)
      · exact ((queue u).1 ((member u).1 mem).1).1
      · exact Option.some.inj isWorst ▸ worstQueued.1
    · intro u _
      rw [member,queue]
      constructor
      · rintro ⟨⟨mem, finite, _⟩, le⟩
        exact ⟨mem, finite, le⟩
      · rintro ⟨mem, finite, le⟩
        exact ⟨⟨mem, finite, le.trans below⟩, le⟩
    · intro u isWorst _
      exact Option.some.inj isWorst ▸ rfl
    · intro _ u mem _
      by_cases inQueue : u ∈ w.queue
      · rcases List.mem_cons.1 (perm.mem_iff.2 inQueue) with rfl | inRest
        · exact le_rfl
        · exact (List.pairwise_cons.1 ordered).1 u inRest
      · by_cases finite : wnsSlack u = ⊤
        · rw [finite]
          exact le_top
        · exact worstQueued.2.2.trans (not_le.1 fun le => inQueue ((queue u).2 ⟨mem, finite, le⟩)).le

omit [LinearOrder V] in
theorem Built.skip (built : Built endpoints wnsSlack w) {v : V} (top : wnsSlack v = ⊤) :
    Built (endpoints ++ [v]) wnsSlack w := by
  refine ⟨⟨?_, ?_, built.accurate.worst, ?_⟩, fun unknown => ⟨(built.unknown unknown).1, ?_⟩⟩
  · exact fun u holds => List.mem_append_left _ (built.accurate.held u holds)
  · intro u _
    rw [built.accurate.queue u not_false,List.mem_append,List.mem_singleton]
    constructor
    · rintro ⟨mem, rest⟩
      exact ⟨.inl mem, rest⟩
    · rintro ⟨mem | rfl, rest⟩
      · exact ⟨mem, rest⟩
      · exact absurd top rest.1
  · intro known u mem _
    rcases List.mem_append.1 mem with mem | mem
    · exact built.accurate.least known u mem not_false
    · rw [List.mem_singleton.1 mem,top]
      exact le_top
  · intro u mem
    rcases List.mem_append.1 mem with mem | mem
    · exact (built.unknown unknown).2 u mem
    · rw [List.mem_singleton.1 mem,top]

omit [LinearOrder V] in
/-- With a worst vertex that no endpoint is below, only the queue is to be checked. -/
theorem built_of_worst {worst : V} (isWorst : w.worstVertex = some worst) (mem : worst ∈ endpoints)
    (value : wnsSlack worst = w.worstSlack) (bound : ∀ u ∈ endpoints, w.worstSlack ≤ wnsSlack u)
    (queue : ∀ u, u ∈ w.queue ↔ u ∈ endpoints ∧ wnsSlack u ≠ ⊤ ∧ wnsSlack u ≤ w.slackThreshold) :
    Built endpoints wnsSlack w := by
  refine ⟨⟨?_, fun u _ => queue u, ?_, fun _ u mem _ => bound u mem⟩, fun unknown => ?_⟩
  · rintro u (inQueue | isWorst')
    · exact ((queue u).1 inQueue).1
    · rw [isWorst] at isWorst'
      exact Option.some.inj isWorst' ▸ mem
  · intro u isWorst' _
    rw [isWorst] at isWorst'
    exact (Option.some.inj isWorst').symm ▸ value
  · rw [isWorst] at unknown
    cases unknown

omit [LinearOrder V] in
/-- The new endpoint is compared with the worst one: after it there is a worst vertex, below all endpoints. -/
theorem Built.setIfWorse (built : Built endpoints wnsSlack w) {v : V} (finite : wnsSlack v ≠ ⊤) :
    ∃ worst ∈ endpoints ++ [v], (setIfWorse wnsSlack w v).worstVertex = some worst ∧
      wnsSlack worst = (setIfWorse wnsSlack w v).worstSlack ∧ ∀ u ∈ endpoints ++ [v],
        (setIfWorse wnsSlack w v).worstSlack ≤ wnsSlack u := by
  obtain ⟨_, _, below, least, found⟩ := foldl_setIfWorse wnsSlack [v] w
  simp only [List.foldl_cons,List.foldl_nil,List.mem_singleton,forall_eq,exists_eq_left] at below least found
  have bound : ∀ u ∈ endpoints ++ [v], (WorstSlack.setIfWorse wnsSlack w v).worstSlack ≤ wnsSlack u := by
    intro u mem
    rcases List.mem_append.1 mem with mem | mem
    · by_cases known : w.worstVertex.isSome
      · exact below.trans (built.accurate.least known u mem not_false)
      · rw [(built.unknown (by simpa using known)).2 u mem]
        exact le_top
    · exact List.mem_singleton.1 mem ▸ least
  rcases found with ⟨vertex, slack⟩ | ⟨vertex, value⟩
  · cases worst : w.worstVertex with
    | none =>
      rw [slack,(built.unknown worst).1] at least
      exact absurd (top_le_iff.1 least) finite
    | some u =>
      refine ⟨u, List.mem_append_left _ (built.accurate.held u (.inr worst)), vertex.trans worst, ?_, bound⟩
      rw [slack]
      exact built.accurate.worst u worst not_false
  · exact ⟨v, by simp, vertex, value, bound⟩

theorem Built.initVertex (built : Built endpoints wnsSlack w) (v : V) :
    Built (endpoints ++ [v]) wnsSlack (initVertex wnsSlack w v) := by
  have queue : ∀ u, u ∈ w.queue ↔ u ∈ endpoints ∧ wnsSlack u ≠ ⊤ ∧ wnsSlack u ≤ w.slackThreshold :=
    fun u => built.accurate.queue u not_false
  unfold WorstSlack.initVertex
  split
  · next top => exact built.skip top
  · next finite =>
    -- the worst first, then the queue, then sorting
    obtain ⟨sameQueue, sameThreshold, -, -, -⟩ := foldl_setIfWorse wnsSlack [v] w
    simp only [List.foldl_cons,List.foldl_nil] at sameQueue sameThreshold
    obtain ⟨worst, worstMem, isWorst, worstValue, bound⟩ := built.setIfWorse finite
    set next := WorstSlack.setIfWorse wnsSlack w v
    have inserted : Built (endpoints ++ [v]) wnsSlack
        (if wnsSlack v ≤ next.slackThreshold then { next with queue := insertVertex next.queue v } else next) := by
      split
      · next low =>
        refine built_of_worst isWorst worstMem worstValue bound fun u => ?_
        rw [mem_insertVertex,sameQueue,queue,List.mem_append,List.mem_singleton]
        dsimp only
        rw [sameThreshold] at low ⊢
        constructor
        · rintro (rfl | ⟨mem, rest⟩)
          · exact ⟨.inr rfl, finite, low⟩
          · exact ⟨.inl mem, rest⟩
        · rintro ⟨mem | rfl, rest⟩
          · exact .inr ⟨mem, rest⟩
          · exact .inl rfl
      · next high =>
        refine built_of_worst isWorst worstMem worstValue bound fun u => ?_
        rw [sameThreshold] at high ⊢
        rw [sameQueue,queue,List.mem_append,List.mem_singleton]
        constructor
        · rintro ⟨mem, rest⟩
          exact ⟨.inl mem, rest⟩
        · rintro ⟨mem | rfl, rest⟩
          · exact ⟨mem, rest⟩
          · exact absurd rest.2 high
    have pruned : ∀ queued : WorstSlack V S, Built (endpoints ++ [v]) wnsSlack queued →
      Built (endpoints ++ [v]) wnsSlack
        (if queued.maxQueueSize ≤ queued.queue.length then WorstSlack.sortQueue wnsSlack queued else queued) := by
      intro queued built
      split
      · exact built.sortQueue
      · exact built
    exact pruned _ inserted

theorem initQueue_built : Built endpoints wnsSlack (initQueue wnsSlack endpoints w) := by
  have walk : ∀ (rest done : List V) (w : WorstSlack V S), Built done wnsSlack w →
      Built (done ++ rest) wnsSlack (rest.foldl (WorstSlack.initVertex wnsSlack) w) := by
    intro rest
    induction rest with
    | nil =>
      intro done w built
      simpa using built
    | cons v rest ih =>
      intro done w built
      have walked := ih (done ++ [v]) _ (built.initVertex v)
      simpa using walked
  refine walk endpoints [] _ ⟨⟨?_, ?_, ?_, ?_⟩, fun _ => ⟨rfl, by simp⟩⟩
  · rintro u (mem | worst)
    · cases mem
    · cases worst
  · intro u _
    simp
  · intro u worst
    cases worst
  · intro known
    cases known

omit [LinearOrder V] in
theorem Built.isWorst (built : Built endpoints wnsSlack w) :
    IsWorst endpoints wnsSlack (w.worstSlack, w.worstVertex) := by
  refine ⟨fun u mem => ?_, fun u worst => ⟨built.accurate.held u (.inr worst), built.accurate.worst u worst not_false⟩,
    fun unknown => (built.unknown unknown).1⟩
  cases worst : w.worstVertex with
  | none =>
    rw [(built.unknown worst).2 u mem]
    exact le_top
  | some v => exact built.accurate.least (by rw [worst]; rfl) u mem not_false

theorem findWorstInQueue_built (accurate : Accurate endpoints wnsSlack (fun _ => False) w) (nonempty : w.queue ≠ []) :
    Built endpoints wnsSlack (findWorstInQueue wnsSlack w) := by
  have queue : ∀ u, u ∈ w.queue ↔ u ∈ endpoints ∧ wnsSlack u ≠ ⊤ ∧ wnsSlack u ≤ w.slackThreshold :=
    fun u => accurate.queue u not_false
  obtain ⟨sameQueue, sameThreshold, _, least, found⟩ := foldl_setIfWorse wnsSlack w.queue (forgetWorst w)
  unfold WorstSlack.findWorstInQueue
  set next := w.queue.foldl (setIfWorse wnsSlack) (forgetWorst w)
  obtain ⟨some', some'Mem⟩ := List.exists_mem_of_ne_nil _ nonempty
  have known : ∃ u ∈ w.queue, next.worstVertex = some u ∧ wnsSlack u = next.worstSlack := by
    rcases found with ⟨_, slack⟩ | found
    · have top := least some' some'Mem
      rw [slack] at top
      exact absurd (top_le_iff.1 top) ((queue some').1 some'Mem).2.1
    · exact found
  obtain ⟨worst, worstMem, isWorst, worstValue⟩ := known
  refine ⟨⟨?_, ?_, ?_, ?_⟩, fun unknown => ?_⟩
  · rintro u (mem | isWorst')
    · exact ((queue u).1 (sameQueue ▸ mem)).1
    · rw [isWorst] at isWorst'
      exact Option.some.inj isWorst' ▸ ((queue worst).1 worstMem).1
  · intro u _
    rw [sameQueue,sameThreshold]
    exact queue u
  · intro u isWorst' _
    rw [isWorst] at isWorst'
    exact Option.some.inj isWorst' ▸ worstValue
  · intro _ u mem _
    by_cases inQueue : u ∈ w.queue
    · exact least u inQueue
    · by_cases finite : wnsSlack u = ⊤
      · rw [finite]
        exact le_top
      · have above : w.slackThreshold < wnsSlack u := not_le.1 fun le => inQueue ((queue u).2 ⟨mem, finite, le⟩)
        exact (least some' some'Mem).trans (((queue some').1 some'Mem).2.2.trans above.le)
  · rw [isWorst] at unknown
    cases unknown

/-- A query is answered from a state that is right about the endpoints or that was asked nothing yet. -/
theorem findWorstSlack_spec (ready : Accurate endpoints wnsSlack (fun _ => False) w ∨ Fresh w) :
    Accurate endpoints wnsSlack (fun _ => False) (findWorstSlack wnsSlack endpoints w) ∧
      IsWorst endpoints wnsSlack ((findWorstSlack wnsSlack endpoints w).worstSlack,
        (findWorstSlack wnsSlack endpoints w).worstVertex) := by
  unfold findWorstSlack
  cases worst : w.worstVertex with
  | none =>
    rw [if_pos rfl]
    by_cases empty : w.queue = []
    · rw [if_pos empty]
      have built : Built endpoints wnsSlack (initQueue wnsSlack endpoints w) := initQueue_built
      exact ⟨built.accurate, built.isWorst⟩
    · rw [if_neg empty]
      have built := findWorstInQueue_built (ready.resolve_right fun fresh => empty fresh.2.1) empty
      exact ⟨built.accurate, built.isWorst⟩
  | some v =>
    have accurate := ready.resolve_right fun fresh => by
      rw [fresh.1] at worst
      cases worst
    rw [if_neg (by simp)]
    refine ⟨accurate, fun u mem => accurate.least (by rw [worst]; rfl) u mem not_false, fun u isWorst =>
      ?_, fun unknown => ?_⟩
    · exact ⟨accurate.held u (.inr isWorst), accurate.worst u isWorst not_false⟩
    · rw [worst] at unknown
      cases unknown

end Queries
end WorstSlack
end GTPower
