import GTPower.CappedQueues
import Mathlib.Data.List.Count
import Mathlib.Logic.Relation

/-! Path ends are enumerated from the worst one on: a path end that is returned adds its diversions to a queue, which is
pruned when it is long. A diversion is given by its path end, and the fanin by the diversions of each path end. -/
namespace GTPower.PathEnums
open CappedQueues

section Source

/-- The diversion queue has the worst path end first. Where `prunes` is off the queue is only ever pruned for unique
pins. -/
structure Params where
  groupCount : ℕ
  endpointCount : ℕ
  uniquePins : Bool
  prunes : Bool

structure PathEnum (δ ν : Type*) where
  divQueue : List δ
  pathCounts : ν → ℕ
  insertsPruned : Bool
  nextEnd : Option δ

variable {δ ν : Type*} [LinearOrder δ] [DecidableEq ν]

namespace PathEnum

def push (divQueue : List δ) (div : δ) : List δ := divQueue.orderedInsert (· ≤ ·) div

def init : PathEnum δ ν := ⟨[], fun _ => 0, false, none⟩

def insert (st : PathEnum δ ν) (pathEnd : δ) : PathEnum δ ν := { st with divQueue := push st.divQueue pathEnd }

variable (params : Params) (vertex : δ → ν) (diversions : δ → List δ)

/-- Collect endpoint_count diversions per vertex. -/
def collect : List δ → (ν → ℕ) → ℕ → List δ
  | [], _, _ => []
  | div :: divQueue, pathCounts, endCount =>
    if endCount < params.groupCount ∧
    pathCounts (vertex div) < (if params.uniquePins then 1 else params.endpointCount) then
      div :: collect divQueue (bump pathCounts (vertex div)) (endCount + 1)
    else collect divQueue pathCounts endCount

/-- Add the top diversions back. -/
def pruneDiversionQueue (divQueue : List δ) : List δ := (collect params vertex divQueue (fun _ => 0) 0).foldl push []

/-- The queue is pruned if there are more potential paths than will be needed. -/
def makeDiversion (divQueue : List δ) (div : δ) : List δ :=
  if params.prunes && decide (params.groupCount * 2 < (push divQueue div).length) then pruneDiversionQueue params vertex
    (push divQueue div)
  else push divQueue div

def makeDiversions (divQueue : List δ) (pathEnd : δ) : List δ :=
  (diversions pathEnd).foldl (makeDiversion params vertex) divQueue

def popNext (insertsPruned : Bool) : List δ → (ν → ℕ) → PathEnum δ ν
  | [], pathCounts => ⟨[], pathCounts, insertsPruned, none⟩
  | div :: divQueue, pathCounts =>
    if bump pathCounts (vertex div) (vertex div) ≤ params.endpointCount then
      ⟨makeDiversions params vertex diversions divQueue div, bump pathCounts (vertex div), insertsPruned, some div⟩
    else popNext insertsPruned divQueue (bump pathCounts (vertex div))

def findNext (st : PathEnum δ ν) : PathEnum δ ν :=
  popNext params vertex diversions st.insertsPruned st.divQueue st.pathCounts

def hasNext (st : PathEnum δ ν) : PathEnum δ ν × Bool :=
  let st := if params.uniquePins && !st.insertsPruned then
    { st with divQueue := pruneDiversionQueue params vertex st.divQueue, insertsPruned := true } else st
  let st := if st.nextEnd.isNone && !st.divQueue.isEmpty then st.findNext params vertex diversions else st
  (st, st.nextEnd.isSome)

def next (st : PathEnum δ ν) : PathEnum δ ν × Option δ := (st.findNext params vertex diversions, st.nextEnd)

/-- The first path ends of `hasNext` and `next`. -/
def ends : ℕ → PathEnum δ ν → List δ
  | 0, _ => []
  | count + 1, st =>
    if (st.hasNext params vertex diversions).2 then
      let next := (st.hasNext params vertex diversions).1.next params vertex diversions
      next.2.toList ++ ends count next.1
    else []

def enumerate (count : ℕ) (roots : List δ) : List δ := ends params vertex diversions count (roots.foldl insert init)

end PathEnum
end Source

section Forest

/-- A diversion has the end of the path that it diverts from, and no less slack. Path ends are ordered by their slack
first. -/
structure Forest (δ ν σ : Type*) [LinearOrder δ] [LinearOrder σ] where
  roots : List δ
  diversions : δ → List δ
  vertex : δ → ν
  slack : δ → σ
  slack_le {pathEnd pathEnd' : δ} : pathEnd ≤ pathEnd' → slack pathEnd ≤ slack pathEnd'
  diversion_slack {pathEnd div : δ} : div ∈ diversions pathEnd → slack pathEnd ≤ slack div
  diversion_vertex {pathEnd div : δ} : div ∈ diversions pathEnd → vertex div = vertex pathEnd
  roots_nodup : roots.Nodup
  diversions_nodup (pathEnd : δ) : (diversions pathEnd).Nodup
  diversion_not_root {pathEnd div : δ} : div ∈ diversions pathEnd → div ∉ roots
  diversion_unique {pathEnd pathEnd' div : δ} : div ∈ diversions pathEnd → div ∈ diversions pathEnd' →
    pathEnd = pathEnd'

variable {δ ν σ : Type*} [LinearOrder δ] [LinearOrder σ] [DecidableEq ν]

/-- Diversions of diversions, and the path end itself. -/
def Forest.Diverts (forest : Forest δ ν σ) : δ → δ → Prop :=
  Relation.ReflTransGen fun pathEnd div => div ∈ forest.diversions pathEnd

def Forest.IsPathEnd (forest : Forest δ ν σ) (pathEnd : δ) : Prop := ∃ root ∈ forest.roots, forest.Diverts root pathEnd

/-- Path ends of the same vertex with no more slack than this one. -/
def Forest.noBetter (forest : Forest δ ν σ) (ends : List δ) (pathEnd : δ) : List δ :=
  ends.filter fun other => forest.vertex other = forest.vertex pathEnd ∧ forest.slack other ≤ forest.slack pathEnd

/-- The worst path ends of a forest: so many in all, and so many of each vertex, are the most there are, and every other
path end is refused, or has no less slack than those. -/
structure Forest.Worst (forest : Forest δ ν σ) (groupCount endpointCount : ℕ) (ends : List δ) : Prop where
  pathEnds : ∀ pathEnd ∈ ends, forest.IsPathEnd pathEnd
  nodup : ends.Nodup
  sorted : ends.Pairwise fun pathEnd pathEnd' => forest.slack pathEnd ≤ forest.slack pathEnd'
  length : ends.length ≤ groupCount
  vertices : ∀ vertex, (ends.map forest.vertex).count vertex ≤ endpointCount
  others : ∀ pathEnd, forest.IsPathEnd pathEnd → pathEnd ∉ ends →
    endpointCount ≤ (forest.noBetter ends pathEnd).length ∨
    ends.length = groupCount ∧ ∀ other ∈ ends, forest.slack other ≤ forest.slack pathEnd

end Forest

section Pruning
variable {δ ν : Type*} [LinearOrder δ] [DecidableEq ν] {groupCount endpointCount : ℕ} {vertex : δ →
    ν} {diversions : δ → List δ}
  {counts counts' : ν → ℕ} {queue queue' : List δ} {st st' : PathEnum δ ν} {done : ℕ}

def Params.pruned (groupCount endpointCount : ℕ) : Params := ⟨groupCount, endpointCount, false, true⟩

def Params.plain (groupCount endpointCount : ℕ) : Params := ⟨groupCount, endpointCount, false, false⟩

namespace PathEnum

theorem push_sorted (sorted : queue.Pairwise (· ≤ ·)) (div : δ) : (push queue div).Pairwise (· ≤ ·) :=
  sorted.orderedInsert div queue

theorem push_perm (queue : List δ) (div : δ) : (push queue div).Perm (div :: queue) :=
  List.perm_orderedInsert _ div queue

theorem foldl_push_perm (divs queue : List δ) (sorted : queue.Pairwise (· ≤ ·)) :
    (divs.foldl push queue).Pairwise (· ≤ ·) ∧ (divs.foldl push queue).Perm (divs ++ queue) := by
  induction divs generalizing queue with
  | nil => exact ⟨sorted, .refl _⟩
  | cons div divs ih =>
    obtain ⟨sorted', perm⟩ := ih _ (push_sorted sorted div)
    exact ⟨sorted', perm.trans (((push_perm queue div).append_left divs).trans List.perm_middle)⟩

theorem foldl_push (sorted : queue.Pairwise (· ≤ ·)) : queue.foldl push [] = queue := by
  obtain ⟨sorted', perm⟩ := foldl_push_perm queue [] .nil
  rw [List.append_nil] at perm
  exact perm.eq_of_pairwise' sorted' sorted

omit [LinearOrder δ] in
theorem collect_sublist (params : Params) (vertex : δ → ν) (queue : List δ) (counts : ν → ℕ) (endCount : ℕ) :
    (collect params vertex queue counts endCount).Sublist queue := by
  induction queue generalizing counts endCount with
  | nil => exact .slnil
  | cons div queue ih =>
    rw [collect]
    by_cases kept : endCount < params.groupCount ∧ counts (vertex div) < if params.uniquePins then 1
      else params.endpointCount
    · rw [if_pos kept]
      exact (ih _ _).cons_cons div
    · rw [if_neg kept]
      exact (ih _ _).cons div

omit [LinearOrder δ] in
theorem collect_cons (div : δ) (queue : List δ) (counts : ν → ℕ) (endCount : ℕ) :
    collect (.pruned groupCount endpointCount) vertex (div :: queue) counts endCount =
      if endCount < groupCount ∧ counts (vertex div) < endpointCount then
        div :: collect (.pruned groupCount endpointCount) vertex queue (bump counts (vertex div)) (endCount + 1)
      else collect (.pruned groupCount endpointCount) vertex queue counts endCount := rfl

theorem popNext_cons (prunes insertsPruned : Bool) (div : δ) (queue : List δ) (counts : ν → ℕ) :
    popNext ⟨groupCount, endpointCount, false, prunes⟩ vertex diversions insertsPruned (div :: queue) counts =
      if counts (vertex div) + 1 ≤ endpointCount then
        ⟨makeDiversions ⟨groupCount, endpointCount, false, prunes⟩ vertex diversions queue div,
          bump counts (vertex div), insertsPruned, some div⟩
      else popNext ⟨groupCount, endpointCount, false, prunes⟩ vertex diversions insertsPruned queue
        (bump counts (vertex div)) := by
  rw [popNext,bump_self]

omit [LinearOrder δ] in
/-- What pruning leaves out is full: the counts of the diversions that are kept before it are not more than those of the
path ends that are taken before it. -/
theorem collect_thinned (queue : List δ) {pathCounts : ν → ℕ} {endCount : ℕ} (below : ∀ v, pathCounts v ≤ counts v)
    (kinds : Finset ν) (few : endCount ≤ taken endpointCount pathCounts kinds) :
    Thinned endpointCount groupCount vertex counts
    (collect (.pruned groupCount endpointCount) vertex queue pathCounts endCount) queue := by
  induction queue generalizing counts pathCounts endCount kinds with
  | nil => exact .nil
  | cons div queue ih =>
    rw [collect_cons]
    by_cases kept : endCount < groupCount ∧ pathCounts (vertex div) < endpointCount
    · rw [if_pos kept]
      apply Thinned.keep
      apply ih (bump_mono below _) (Insert.insert (vertex div) kinds)
      exact (Nat.succ_le_succ few).trans (le_taken_bump kept.2 kinds)
    · have full : Full endpointCount groupCount counts (vertex div) := by
        rcases not_and_or.1 kept with many | refused
        · exact .inr ⟨kinds, (Nat.not_lt.1 many).trans (few.trans (taken_mono below kinds))⟩
        · exact .inl ((Nat.not_lt.1 refused).trans (below _))
      rw [if_neg kept]
      exact .drop full (ih below kinds few)

theorem pruneDiversionQueue_thinned (vertex : δ → ν) (sorted : queue.Pairwise (· ≤ ·)) (counts : ν → ℕ) :
    Thinned endpointCount groupCount vertex counts (pruneDiversionQueue (.pruned groupCount endpointCount) vertex queue)
    queue ∧
      (pruneDiversionQueue (.pruned groupCount endpointCount) vertex queue).Pairwise (· ≤ ·) := by
  have kept := sorted.sublist (collect_sublist (.pruned groupCount endpointCount) vertex queue (fun _ => 0) 0)
  unfold pruneDiversionQueue
  rw [foldl_push kept]
  exact ⟨collect_thinned queue (fun _ => Nat.zero_le _) ∅ (Nat.zero_le _), kept⟩

/-- A queue without full diversions, and the sorted queue with them. -/
structure Prunes (groupCount endpointCount : ℕ) (vertex : δ → ν) (counts : ν → ℕ) (queue queue' : List δ) : Prop where
  thinned : Thinned endpointCount groupCount vertex counts queue queue'
  sorted : queue.Pairwise (· ≤ ·)
  sorted' : queue'.Pairwise (· ≤ ·)

theorem Prunes.makeDiversion (prunes : Prunes groupCount endpointCount vertex counts queue queue') (div : δ) :
    Prunes groupCount endpointCount vertex counts (makeDiversion (.pruned groupCount endpointCount) vertex queue div)
      (makeDiversion (.plain groupCount endpointCount) vertex queue' div) := by
  have pushed := prunes.thinned.insert prunes.sorted' div
  have sorted := push_sorted prunes.sorted div
  have plain : PathEnum.makeDiversion (.plain groupCount endpointCount) vertex queue' div = push queue' div := rfl
  rw [plain]
  unfold PathEnum.makeDiversion
  split
  · obtain ⟨thinned, sorted'⟩ := pruneDiversionQueue_thinned vertex sorted counts
    exact ⟨thinned.trans pushed, sorted', push_sorted prunes.sorted' div⟩
  · exact ⟨pushed, sorted, push_sorted prunes.sorted' div⟩

theorem Prunes.makeDiversions (prunes : Prunes groupCount endpointCount vertex counts queue queue') (pathEnd : δ) :
    Prunes groupCount endpointCount vertex counts
    (makeDiversions (.pruned groupCount endpointCount) vertex diversions queue pathEnd)
      (makeDiversions (.plain groupCount endpointCount) vertex diversions queue' pathEnd) := by
  unfold PathEnum.makeDiversions
  generalize diversions pathEnd = divs
  induction divs generalizing queue queue' with
  | nil => exact prunes
  | cons div divs ih => exact ih (prunes.makeDiversion div)

/-- The enumerations with and without pruning when so many path ends are found. -/
structure Agree (groupCount endpointCount : ℕ) (vertex : δ → ν) (done : ℕ) (st st' : PathEnum δ ν) : Prop where
  prunes : Prunes groupCount endpointCount vertex st.pathCounts st.divQueue st'.divQueue
  counts : ∀ v, min endpointCount (st.pathCounts v) = min endpointCount (st'.pathCounts v)
  done : ∀ kinds, taken endpointCount st.pathCounts kinds ≤ done
  nextEnd : st.nextEnd = st'.nextEnd

theorem popNext_agree (prunes : Prunes groupCount endpointCount vertex counts queue queue')
    (same : ∀ v, min endpointCount (counts v) = min endpointCount (counts' v))
    (few : ∀ kinds, taken endpointCount counts kinds ≤ done) (more : done < groupCount)
    (insertsPruned insertsPruned' : Bool) :
    Agree groupCount endpointCount vertex (done + 1)
      (popNext (.pruned groupCount endpointCount) vertex diversions insertsPruned queue counts)
      (popNext (.plain groupCount endpointCount) vertex diversions insertsPruned' queue' counts') := by
  obtain ⟨thinned, sorted, sorted'⟩ := prunes
  induction thinned generalizing counts' with
  | nil => exact ⟨⟨.nil, .nil, .nil⟩, same, fun kinds => (few kinds).trans (Nat.le_succ _), rfl⟩
  | @keep counts div queue queue' rest ih =>
    have tail := (List.pairwise_cons.1 sorted).2
    have tail' := (List.pairwise_cons.1 sorted').2
    have bumped := min_bump_congr same (vertex div)
    have here := same (vertex div)
    rw [Params.pruned,Params.plain,popNext_cons,popNext_cons]
    by_cases accepted : counts (vertex div) + 1 ≤ endpointCount
    · have accepted' : counts' (vertex div) + 1 ≤ endpointCount := by omega
      rw [if_pos accepted,if_pos accepted']
      exact ⟨Prunes.makeDiversions ⟨rest, tail, tail'⟩ div, bumped,
        fun kinds => (taken_bump_le counts (vertex div) kinds).trans (Nat.succ_le_succ (few kinds)), rfl⟩
    · have refused' : ¬counts' (vertex div) + 1 ≤ endpointCount := by omega
      rw [if_neg accepted,if_neg refused']
      apply ih bumped _ tail tail'
      intro kinds
      rw [taken_congr (min_bump_of_le (by omega)) kinds]
      exact few kinds
  | @drop counts div queue queue' full rest ih =>
    have tail' := (List.pairwise_cons.1 sorted').2
    have refused : endpointCount ≤ counts (vertex div) := by
      rcases full with refused | ⟨kinds, many⟩
      · exact refused
      · exact absurd (many.trans (few kinds)) (Nat.not_le.2 more)
    have here := same (vertex div)
    have refused' : endpointCount ≤ counts' (vertex div) := by omega
    rw [Params.plain,popNext_cons,if_neg (Nat.not_le.2 (Nat.lt_succ_of_le refused'))]
    apply ih _ few sorted tail'
    intro v
    rw [min_bump_of_le refused' v]
    exact same v

theorem Agree.findNext (agree : Agree groupCount endpointCount vertex done st st') (more : done < groupCount) :
    Agree groupCount endpointCount vertex (done + 1) (st.findNext (.pruned groupCount endpointCount) vertex diversions)
      (st'.findNext (.plain groupCount endpointCount) vertex diversions) :=
  popNext_agree agree.prunes agree.counts agree.done more _ _

/-- There is a next path end, or the queue is empty. -/
def Found (st : PathEnum δ ν) : Prop := st.nextEnd = none → st.divQueue = []

variable {prunes : Bool}

theorem popNext_found (params : Params) (insertsPruned : Bool) (queue : List δ) (counts : ν → ℕ) :
    (popNext params vertex diversions insertsPruned queue counts).Found := by
  induction queue generalizing counts with
  | nil => exact fun _ => rfl
  | cons div queue ih =>
    rw [popNext]
    split
    · intro none
      cases none
    · exact ih _

theorem findNext_found (params : Params) (st : PathEnum δ ν) : (st.findNext params vertex diversions).Found :=
  popNext_found params st.insertsPruned st.divQueue st.pathCounts

theorem ends_found (found : st.Found) (count : ℕ) :
    ends ⟨groupCount, endpointCount, false, prunes⟩ vertex diversions (count + 1) st =
    match st.nextEnd with
    | none => []
    | some pathEnd => pathEnd :: ends ⟨groupCount, endpointCount, false, prunes⟩ vertex diversions count
        (st.findNext ⟨groupCount, endpointCount, false, prunes⟩ vertex diversions) := by
  have same : (st.hasNext ⟨groupCount, endpointCount, false, prunes⟩ vertex diversions) = (st, st.nextEnd.isSome) := by
    unfold hasNext
    simp only [Bool.false_and,Bool.false_eq_true,if_false]
    cases nextEnd : st.nextEnd with
    | none => simp [found nextEnd,nextEnd]
    | some pathEnd => simp [nextEnd]
  rw [ends,same]
  cases nextEnd : st.nextEnd with
  | none => rfl
  | some pathEnd => simp [next,nextEnd]

theorem ends_findNext (first : st.nextEnd = none) (count : ℕ) :
    ends ⟨groupCount, endpointCount, false, prunes⟩ vertex diversions count st =
    ends ⟨groupCount, endpointCount, false, prunes⟩ vertex diversions count
    (st.findNext ⟨groupCount, endpointCount, false, prunes⟩ vertex diversions) := by
  cases count with
  | zero => rfl
  | succ count =>
    have found : (st.findNext ⟨groupCount, endpointCount, false, prunes⟩ vertex diversions).Found := findNext_found _ st
    cases queue : st.divQueue with
    | nil =>
      have idle : (st.findNext ⟨groupCount, endpointCount, false, prunes⟩ vertex diversions).nextEnd = none := by
        rw [findNext,queue,popNext]
      rw [ends_found (fun _ => queue),ends_found found,first,idle]
    | cons div rest =>
      have same : st.hasNext ⟨groupCount, endpointCount, false, prunes⟩ vertex diversions =
          (st.findNext ⟨groupCount, endpointCount, false, prunes⟩ vertex diversions).hasNext ⟨groupCount, endpointCount,
            false, prunes⟩ vertex diversions := by
        unfold hasNext
        simp only [Bool.false_and,Bool.false_eq_true,if_false,first,queue]
        cases nextEnd : (st.findNext ⟨groupCount, endpointCount, false, prunes⟩ vertex diversions).nextEnd with
        | none => simp [found nextEnd,nextEnd]
        | some pathEnd => simp [nextEnd]
      rw [ends,ends,same]

theorem Agree.ends (agree : Agree groupCount endpointCount vertex done st st') (found : st.Found)
    (found' : st'.Found) (count : ℕ)
    (wanted : done + count ≤ groupCount + 1) : ends (.pruned groupCount endpointCount) vertex diversions count st =
      ends (.plain groupCount endpointCount) vertex diversions count st' := by
  induction count generalizing st st' done with
  | zero => rfl
  | succ count ih =>
    rw [Params.pruned,Params.plain,ends_found found,ends_found found',agree.nextEnd]
    cases st'.nextEnd with
    | none => rfl
    | some pathEnd =>
      simp only [List.cons.injEq,true_and]
      cases count with
      | zero => rfl
      | succ count => exact ih (agree.findNext (by omega)) (findNext_found _ st) (findNext_found _ st') (by omega)

omit [DecidableEq ν] in
theorem foldl_insert (roots : List δ) : (roots.foldl PathEnum.insert (init : PathEnum δ ν)) =
    { (init : PathEnum δ ν) with divQueue := roots.foldl push [] } := by
  have all : ∀ st : PathEnum δ ν, roots.foldl PathEnum.insert st =
    { st with divQueue := roots.foldl push st.divQueue } := by
    induction roots with
    | nil => exact fun st => rfl
    | cons root roots ih => exact fun st => ih (st.insert root)
  exact all init

/-- Pruning leaves the enumeration as it is. -/
theorem enumerate_pruned_eq (vertex : δ → ν) (diversions : δ → List δ) (roots : List δ) :
    enumerate (.pruned groupCount endpointCount) vertex diversions groupCount roots =
      enumerate (.plain groupCount endpointCount) vertex diversions groupCount roots := by
  have sorted := (foldl_push_perm roots [] .nil).1
  have agree : Agree groupCount endpointCount vertex 0 (roots.foldl PathEnum.insert init)
    (roots.foldl PathEnum.insert (init : PathEnum δ ν)) := by
    rw [foldl_insert]
    exact ⟨⟨.refl _ _, sorted, sorted⟩, fun _ => rfl, fun kinds => by simp [taken,init], rfl⟩
  have first : (roots.foldl PathEnum.insert (init : PathEnum δ ν)).nextEnd = none := by rw [foldl_insert]; rfl
  unfold enumerate
  cases groupCount with
  | zero => rfl
  | succ groupCount =>
    rw [Params.pruned,Params.plain,ends_findNext first,ends_findNext first]
    exact (agree.findNext (Nat.succ_pos _)).ends (findNext_found _ _) (findNext_found _ _) _ (by omega)

end PathEnum
end Pruning

section Worst
variable {δ ν σ : Type*} [LinearOrder δ] [LinearOrder σ] [DecidableEq ν] {forest : Forest δ ν σ}
    {groupCount endpointCount : ℕ}
  {found queue : List δ} {counts : ν → ℕ} {pathEnd other : δ} {st : PathEnum δ ν}

namespace Forest
open PathEnum

omit [DecidableEq ν] in
theorem Diverts.slack_le (diverts : forest.Diverts pathEnd other) : forest.slack pathEnd ≤ forest.slack other := by
  induction diverts with
  | refl => exact le_rfl
  | tail _ div ih => exact ih.trans (forest.diversion_slack div)

omit [DecidableEq ν] in
theorem Diverts.vertex_eq (diverts : forest.Diverts pathEnd other) : forest.vertex other = forest.vertex pathEnd := by
  induction diverts with
  | refl => rfl
  | tail _ div ih => rw [forest.diversion_vertex div,ih]

theorem noBetter_sublist {found' : List δ} (more : found.Sublist found') (pathEnd : δ) :
    (forest.noBetter found pathEnd).length ≤ (forest.noBetter found' pathEnd).length := (more.filter _).length_le

/-- The path ends that are found, the queue and the counts of the paths that are popped. Every path end is found,
refused, or reached from the queue. -/
structure Explored (forest : Forest δ ν σ) (endpointCount : ℕ) (found queue : List δ) (counts : ν → ℕ) : Prop where
  queueSorted : queue.Pairwise (· ≤ ·)
  sorted : found.Pairwise fun pathEnd pathEnd' => forest.slack pathEnd ≤ forest.slack pathEnd'
  ahead : ∀ pathEnd ∈ found, ∀ other ∈ queue, forest.slack pathEnd ≤ forest.slack other
  nodup : (found ++ queue).Nodup
  pathEnds : ∀ pathEnd ∈ found ++ queue, forest.IsPathEnd pathEnd
  diversions : ∀ pathEnd ∈ found ++ queue, pathEnd ∈ forest.roots ∨ ∃ parent ∈ found, pathEnd ∈ forest.diversions parent
  counts : ∀ vertex, (found.map forest.vertex).count vertex = min endpointCount (counts vertex)
  covered : ∀ pathEnd, forest.IsPathEnd pathEnd →
    pathEnd ∈ found ∨ (∃ root ∈ queue, forest.Diverts root pathEnd) ∨
      endpointCount ≤ (forest.noBetter found pathEnd).length

/-- So many path ends of the vertex are found, and none of them has more slack. -/
theorem Explored.refuse (explored : forest.Explored endpointCount found (pathEnd :: queue) counts)
    (refused : endpointCount ≤ counts (forest.vertex pathEnd)) :
    forest.Explored endpointCount found queue (bump counts (forest.vertex pathEnd)) where
  queueSorted := (List.pairwise_cons.1 explored.queueSorted).2
  sorted := explored.sorted
  ahead := fun before mem other mem' => explored.ahead before mem other (List.mem_cons_of_mem _ mem')
  nodup := explored.nodup.sublist ((List.sublist_cons_self pathEnd queue).append_left found)
  pathEnds := fun other mem => explored.pathEnds other (List.append_subset.2 ⟨List.subset_append_left _ _,
    fun _ mem => List.mem_append_right _ (List.mem_cons_of_mem _ mem)⟩ mem)
  diversions := fun other mem => explored.diversions other (List.append_subset.2 ⟨List.subset_append_left _ _,
    fun _ mem => List.mem_append_right _ (List.mem_cons_of_mem _ mem)⟩ mem)
  counts := by
    intro vertex
    rw [min_bump_of_le refused]
    exact explored.counts vertex
  covered := by
    intro other isEnd
    rcases explored.covered other isEnd with mem | ⟨root, mem, diverts⟩ | full
    · exact .inl mem
    · rcases List.mem_cons.1 mem with rfl | mem
      · right
        right
        have all : forest.noBetter found other = found.filter fun before =>
          forest.vertex before = forest.vertex root := by
          apply List.filter_congr
          intro before mem
          have below := (explored.ahead before mem root List.mem_cons_self).trans diverts.slack_le
          simp [below,diverts.vertex_eq]
        have count := explored.counts (forest.vertex root)
        rw [min_eq_left refused,List.count_eq_countP,List.countP_map,List.countP_eq_length_filter] at count
        rw [all]
        exact count.ge
      · exact .inr (.inl ⟨root, mem, diverts⟩)
    · exact .inr (.inr full)

theorem Explored.accept (explored : forest.Explored endpointCount found (pathEnd :: queue) counts)
    (accepted : counts (forest.vertex pathEnd) + 1 ≤ endpointCount) {queue' : List δ} (sorted : queue'.Pairwise (· ≤ ·))
    (perm : queue'.Perm (forest.diversions pathEnd ++ queue)) :
    forest.Explored endpointCount (found ++ [pathEnd]) queue' (bump counts (forest.vertex pathEnd)) := by
  obtain ⟨least, -⟩ := List.pairwise_cons.1 explored.queueSorted
  have before : ∀ before ∈ found, forest.slack before ≤ forest.slack pathEnd :=
    fun before mem => explored.ahead before mem pathEnd List.mem_cons_self
  have isEnd : forest.IsPathEnd pathEnd := explored.pathEnds pathEnd (List.mem_append_right _ List.mem_cons_self)
  have nodup := explored.nodup
  have reorder : (found ++ [pathEnd] ++ queue').Perm (forest.diversions pathEnd ++ (found ++ pathEnd :: queue)) := by
    have same : found ++ pathEnd :: queue = found ++ [pathEnd] ++ queue := by simp
    rw [same]
    exact (perm.append_left _).trans (List.perm_append_comm_assoc ..)
  refine ⟨sorted, ?_, ?_, ?_, ?_, ?_, ?_, ?_⟩
  · rw [List.pairwise_append]
    refine ⟨explored.sorted, List.pairwise_singleton _ _, ?_⟩
    intro early mem late mem'
    rw [List.mem_singleton.1 mem']
    exact before early mem
  · intro early mem late mem'
    have later : forest.slack pathEnd ≤ forest.slack late := by
      rcases List.mem_append.1 (perm.mem_iff.1 mem') with div | old
      · exact forest.diversion_slack div
      · exact forest.slack_le (least late old)
    rcases List.mem_append.1 mem with old | here
    · exact (before early old).trans later
    · rw [List.mem_singleton.1 here]
      exact later
  · rw [reorder.nodup_iff,List.nodup_append]
    refine ⟨forest.diversions_nodup pathEnd, nodup, ?_⟩
    rintro div mem other mem' rfl
    rcases explored.diversions div mem' with root | ⟨parent, parentFound, isDiv⟩
    · exact forest.diversion_not_root mem root
    · rw [forest.diversion_unique isDiv mem] at parentFound
      exact (List.nodup_append.1 nodup).2.2 pathEnd parentFound pathEnd List.mem_cons_self rfl
  · intro other mem
    rcases List.mem_append.1 (reorder.mem_iff.1 mem) with div | old
    · obtain ⟨root, isRoot, diverts⟩ := isEnd
      exact ⟨root, isRoot, diverts.tail div⟩
    · exact explored.pathEnds other old
  · intro other mem
    rcases List.mem_append.1 (reorder.mem_iff.1 mem) with div | old
    · exact .inr ⟨pathEnd, List.mem_append_right _ List.mem_cons_self, div⟩
    · rcases explored.diversions other old with root | ⟨parent, parentFound, isDiv⟩
      · exact .inl root
      · exact .inr ⟨parent, List.mem_append_left _ parentFound, isDiv⟩
  · intro vertex
    have count := explored.counts vertex
    rw [List.map_append,List.count_append,count,List.map_singleton,List.count_singleton]
    by_cases here : vertex = forest.vertex pathEnd
    · subst here
      rw [bump_self,if_pos (beq_self_eq_true _)]
      omega
    · rw [bump_of_ne here,if_neg]
      · rfl
      · intro same
        exact here (beq_iff_eq.1 same).symm
  · intro other otherEnd
    rcases explored.covered other otherEnd with mem | ⟨root, mem, diverts⟩ | full
    · exact .inl (List.mem_append_left _ mem)
    · rcases List.mem_cons.1 mem with rfl | mem
      · rcases diverts.cases_head with rfl | ⟨div, isDiv, diverts⟩
        · exact .inl (List.mem_append_right _ List.mem_cons_self)
        · exact .inr (.inl ⟨div, perm.mem_iff.2 (List.mem_append_left _ isDiv), diverts⟩)
      · exact .inr (.inl ⟨root, perm.mem_iff.2 (List.mem_append_right _ mem), diverts⟩)
    · exact .inr (.inr (full.trans (forest.noBetter_sublist (List.sublist_append_left _ _) other)))

theorem Explored.popNext (explored : forest.Explored endpointCount found queue counts) (insertsPruned : Bool) :
    forest.Explored endpointCount
      (found ++ (popNext (.plain groupCount endpointCount) forest.vertex forest.diversions insertsPruned queue
        counts).nextEnd.toList)
      (popNext (.plain groupCount endpointCount) forest.vertex forest.diversions insertsPruned queue counts).divQueue
      (popNext (.plain groupCount endpointCount) forest.vertex forest.diversions insertsPruned queue
        counts).pathCounts := by
  induction queue generalizing counts with
  | nil =>
    rw [PathEnum.popNext,Option.toList_none,List.append_nil]
    exact explored
  | cons pathEnd queue ih =>
    rw [Params.plain,popNext_cons]
    by_cases accepted : counts (forest.vertex pathEnd) + 1 ≤ endpointCount
    · rw [if_pos accepted]
      obtain ⟨sorted, perm⟩ :=
        foldl_push_perm (forest.diversions pathEnd) queue (List.pairwise_cons.1 explored.queueSorted).2
      exact explored.accept accepted sorted perm
    · rw [if_neg accepted]
      exact ih (explored.refuse (by omega))

/-- The path ends that are returned, until as many are returned as are asked for, or the queue is empty. -/
theorem Explored.ends (isFound : st.Found)
    (explored : forest.Explored endpointCount (found ++ st.nextEnd.toList) st.divQueue st.pathCounts)
    (groupCount count : ℕ) : ∃ queue counts, forest.Explored endpointCount
        (found ++ ends (.plain groupCount endpointCount) forest.vertex forest.diversions (count + 1) st) queue counts ∧
      (ends (.plain groupCount endpointCount) forest.vertex forest.diversions (count + 1) st).length ≤ count + 1 ∧
      ((ends (.plain groupCount endpointCount) forest.vertex forest.diversions (count + 1) st).length = count + 1 ∨
        queue = []) := by
  induction count generalizing found st with
  | zero =>
    rw [Params.plain,ends_found isFound]
    cases nextEnd : st.nextEnd with
    | none =>
      rw [nextEnd] at explored
      exact ⟨_, _, explored, Nat.zero_le _, .inr (isFound nextEnd)⟩
    | some pathEnd =>
      rw [nextEnd] at explored
      exact ⟨_, _, explored, le_rfl, .inl rfl⟩
  | succ count ih =>
    rw [Params.plain,ends_found isFound]
    cases nextEnd : st.nextEnd with
    | none =>
      rw [nextEnd] at explored
      exact ⟨_, _, explored, Nat.zero_le _, .inr (isFound nextEnd)⟩
    | some pathEnd =>
      rw [nextEnd] at explored
      obtain ⟨queue, counts, explored', short, full⟩ := ih (findNext_found (.plain groupCount endpointCount) st)
        (explored.popNext st.insertsPruned)
      have same : ∀ ends : List δ, found ++ (some pathEnd).toList ++ ends = found ++ pathEnd :: ends :=
        fun ends => by simp
      rw [same] at explored'
      refine ⟨queue, counts, explored', Nat.succ_le_succ short, ?_⟩
      rcases full with full | empty
      · exact .inl (congrArg Nat.succ full)
      · exact .inr empty

theorem Explored.worst (explored : forest.Explored endpointCount found queue counts) (short : found.length ≤ groupCount)
    (full : found.length = groupCount ∨ queue = []) : forest.Worst groupCount endpointCount found where
  pathEnds := fun pathEnd mem => explored.pathEnds pathEnd (List.mem_append_left _ mem)
  nodup := (List.nodup_append.1 explored.nodup).1
  sorted := explored.sorted
  length := short
  vertices := fun vertex => (explored.counts vertex).le.trans (min_le_left _ _)
  others := by
    intro pathEnd isEnd notFound
    rcases explored.covered pathEnd isEnd with mem | ⟨root, mem, diverts⟩ | refused
    · exact absurd mem notFound
    · right
      refine ⟨full.resolve_right (List.ne_nil_of_mem mem), ?_⟩
      intro other mem'
      exact (explored.ahead other mem' root mem).trans diverts.slack_le
    · exact .inl refused

theorem explored_roots (forest : Forest δ ν σ) (endpointCount : ℕ) :
    forest.Explored endpointCount [] (forest.roots.foldl push []) fun _ => 0 := by
  obtain ⟨sorted, perm⟩ := foldl_push_perm forest.roots [] .nil
  rw [List.append_nil] at perm
  have mem : ∀ pathEnd, pathEnd ∈ forest.roots.foldl push [] ↔ pathEnd ∈ forest.roots := fun _ => perm.mem_iff
  refine ⟨sorted, .nil, by simp, perm.nodup_iff.2 forest.roots_nodup, ?_, ?_, by simp, ?_⟩
  · intro pathEnd isRoot
    exact ⟨pathEnd, (mem pathEnd).1 isRoot, .refl⟩
  · intro pathEnd isRoot
    exact .inl ((mem pathEnd).1 isRoot)
  · rintro pathEnd ⟨root, isRoot, diverts⟩
    exact .inr (.inl ⟨root, (mem root).2 isRoot, diverts⟩)

theorem enumerate_worst (forest : Forest δ ν σ) (groupCount endpointCount : ℕ) : forest.Worst groupCount endpointCount
    (enumerate (.plain groupCount endpointCount) forest.vertex forest.diversions groupCount forest.roots) := by
  have roots := explored_roots forest endpointCount
  unfold enumerate
  cases groupCount with
  | zero =>
    refine ⟨?_, .nil, .nil, le_rfl, ?_, ?_⟩
    · intro pathEnd mem
      cases mem
    · exact fun vertex => Nat.zero_le _
    · intro pathEnd _ _
      exact .inr ⟨rfl, fun other mem => nomatch mem⟩
  | succ groupCount =>
    have first : (forest.roots.foldl PathEnum.insert (init : PathEnum δ ν)).nextEnd = none := by rw [foldl_insert]; rfl
    rw [Params.plain,ends_findNext first,foldl_insert]
    generalize start : ({ init with divQueue := forest.roots.foldl push [] } : PathEnum δ ν) = st
    have explored : forest.Explored endpointCount
        ([] ++ (st.findNext (.plain (groupCount + 1) endpointCount) forest.vertex forest.diversions).nextEnd.toList)
        (st.findNext (.plain (groupCount + 1) endpointCount) forest.vertex forest.diversions).divQueue
        (st.findNext (.plain (groupCount + 1) endpointCount) forest.vertex forest.diversions).pathCounts := by
      subst start
      exact roots.popNext false
    obtain ⟨queue, counts, explored, short, full⟩ :=
      Explored.ends (findNext_found _ st) explored (groupCount + 1) groupCount
    exact explored.worst short full

/-- The path ends that are returned with pruning are those without it, and these are the worst ones. -/
theorem enumerate_pruned (forest : Forest δ ν σ) (groupCount endpointCount : ℕ) :
    enumerate (.pruned groupCount endpointCount) forest.vertex forest.diversions groupCount forest.roots =
        enumerate (.plain groupCount endpointCount) forest.vertex forest.diversions groupCount forest.roots ∧
      forest.Worst groupCount endpointCount (enumerate (.plain groupCount endpointCount) forest.vertex forest.diversions
        groupCount forest.roots) :=
  ⟨enumerate_pruned_eq forest.vertex forest.diversions forest.roots, forest.enumerate_worst groupCount endpointCount⟩

/-- A path end with a diversion, and a path end of another vertex. -/
def threePaths : Forest ℕ ℕ ℕ where
  roots := [1, 2]
  diversions pathEnd := if pathEnd = 1 then [3] else []
  vertex pathEnd := if pathEnd = 2 then 2 else 1
  slack pathEnd := pathEnd
  slack_le less := less
  diversion_slack := by
    intro pathEnd div mem
    split at mem
    · rw [List.mem_singleton.1 mem]
      omega
    · cases mem
  diversion_vertex := by
    intro pathEnd div mem
    split at mem
    · rename_i first
      rw [List.mem_singleton.1 mem,first]
      rfl
    · cases mem
  roots_nodup := by decide
  diversions_nodup pathEnd := by split <;> simp
  diversion_not_root := by
    intro pathEnd div mem
    split at mem
    · rw [List.mem_singleton.1 mem]
      decide
    · cases mem
  diversion_unique := by
    intro pathEnd pathEnd' div mem mem'
    split at mem
    · split at mem'
      · simp [*]
      · cases mem'
    · cases mem

/-- One path end of each vertex is returned. -/
example : enumerate (.pruned 2 1) threePaths.vertex threePaths.diversions 2 threePaths.roots = [1, 2] := by decide

end Forest
end Worst

end GTPower.PathEnums
