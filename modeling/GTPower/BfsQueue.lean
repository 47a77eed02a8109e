import Mathlib.Data.List.Perm.Basic
import Mathlib.Data.List.ReduceOption
import Mathlib.Algebra.Order.Ring.Int
import Mathlib.Order.Basic

/-! Visits of the vertices of a search queue, level by level, one after the other and in chunks on threads. Levels count
in the direction of the search: they are the negated levels of the source in a backward search. -/
namespace GTPower.Bfs

variable {V : Type*} [DecidableEq V]

/-- The queue with what the visits did so far. A removed vertex leaves a hole in the list of its level. -/
structure State (V : Type*) where
  queue : ℤ → List (Option V)
  inQueue : V → Bool
  firstLevel : ℤ
  lastLevel : ℤ
  visited : List V
  visitCount : Nat

section Source

variable (level : V → ℤ)

def setLevel (l : ℤ) (entries : List (Option V)) (st : State V) : State V :=
  { st with queue := fun other => if other = l then entries else st.queue other }

def enqueue (st : State V) (v : V) : State V :=
  if st.inQueue v then st
  else
    { st with
      inQueue := fun other => if other = v then true else st.inQueue other
      queue := fun l => if l = level v then st.queue l ++ [some v] else st.queue l
      lastLevel := if st.lastLevel < level v then level v else st.lastLevel
      firstLevel := if level v < st.firstLevel then level v else st.firstLevel }

variable (visitor : List V → V → List V)

/-- A visit enqueues vertices; which ones may depend on the visits before it. -/
def visitVertex (st : State V) (v : V) : State V :=
  (visitor st.visited v).foldl (enqueue level)
    { st with inQueue := fun other => if other = v then false else st.inQueue other, visited := st.visited ++ [v] }

def visitEntry (st : State V) (entry : Option V) : State V :=
  match entry with
  | none => st
  | some v => visitVertex level visitor st v

/-- Visits from the back of a level until nothing is left; a visit may add to the level. -/
def popLevel : Nat → ℤ → State V → Option (State V)
  | 0, _, _ => none
  | fuel + 1, l, st =>
    match (st.queue l).getLast? with
    | none => some st
    | some none => popLevel fuel l (setLevel l (st.queue l).dropLast st)
    | some (some v) =>
      let next := visitVertex level visitor (setLevel l (st.queue l).dropLast st) v
      popLevel fuel l { next with visitCount := next.visitCount + 1 }

def more (toLevel : ℤ) (st : State V) : Prop := st.firstLevel ≤ st.lastLevel ∧ st.firstLevel ≤ toLevel

instance (toLevel : ℤ) (st : State V) : Decidable (more toLevel st) := inferInstanceAs (Decidable (_ ∧ _))

def incrLevel (st : State V) : State V := { st with firstLevel := st.firstLevel + 1 }

def visit : Nat → ℤ → State V → Option (State V)
  | 0, _, _ => none
  | fuel + 1, toLevel, st =>
    if more toLevel st then (popLevel level visitor fuel st.firstLevel (incrLevel st)).bind (visit fuel toLevel)
    else some st

/-- Runs of equal length; the last thread gets the left overs. -/
def chunks (threadCount : Nat) (entries : List (Option V)) : List (List (Option V)) :=
  (List.range threadCount).map fun k =>
    let rest := entries.drop (k * (entries.length / threadCount))
    if k = threadCount - 1 then rest else rest.take (entries.length / threadCount)

/-- The chunks of a level run in an order that may depend on everything before. -/
structure Schedule (V : Type*) where
  order : List V → List (List (Option V)) → List (List (Option V))
  perm : ∀ visited chunks, (order visited chunks).Perm chunks

/-- Entries added to the level during its visit are dropped with it. A level with fewer entries than threads is visited
by an iteration that a growing level invalidates. -/
def visitLevelParallel (threadCount : Nat) (schedule : Schedule V) (l : ℤ) (st : State V) : Option (State V) :=
  if (st.queue l).length < threadCount then
    let next := (st.queue l).foldl (visitEntry level visitor) st
    if (next.queue l).length = (st.queue l).length then some (setLevel l [] next) else none
  else
    some (setLevel l [] ((schedule.order st.visited (chunks threadCount (st.queue l))).flatten.foldl
      (visitEntry level visitor) st))

def parallelLoop (threadCount : Nat) (schedule : Schedule V) : Nat → ℤ → State V → Option (State V)
  | 0, _, _ => none
  | fuel + 1, toLevel, st =>
    if more toLevel st then
      if st.queue st.firstLevel = [] then parallelLoop threadCount schedule fuel toLevel (incrLevel st)
      else
        (visitLevelParallel level visitor threadCount schedule st.firstLevel (incrLevel st)).bind
          (parallelLoop threadCount schedule fuel toLevel)
    else some st

/-- One thread visits like `visit`, and more threads do not count. -/
def visitParallel (threadCount : Nat) (schedule : Schedule V) (fuel : Nat) (toLevel : ℤ) (st : State V) :
    Option (State V) :=
  if st.firstLevel ≤ st.lastLevel then
    if threadCount = 1 then visit level visitor fuel toLevel st
    else parallelLoop level visitor threadCount schedule fuel toLevel st
  else some st

end Source

/-- The same vertices visited, the same queue and flags left. -/
structure SameVisits (st st' : State V) : Prop where
  visited : st.visited.Perm st'.visited
  queue : ∀ l, (st.queue l).Perm (st'.queue l)
  inQueue : st.inQueue = st'.inQueue

/-- A parallel visit, whatever the order of the chunks, does what the visit `seq` did and returns its count. -/
def Agrees (level : V → ℤ) (visitor : List V → V → List V) (threadCount : Nat) (toLevel : ℤ) (st seq : State V) :
    Prop :=
  ∀ schedule, ∃ fuel par, visitParallel level visitor threadCount schedule fuel toLevel st = some par ∧
    SameVisits seq par ∧ seq.visitCount = par.visitCount

/-- No vertex waits at a level that will be visited. -/
def Idle (toLevel : ℤ) (st : State V) : Prop :=
  ∀ l, st.firstLevel ≤ l → l ≤ st.lastLevel → l ≤ toLevel → ∀ entry ∈ st.queue l, entry = none

section Levels

variable {st : State V} {l : ℤ} {entries : List (Option V)}

omit [DecidableEq V] in
theorem setLevel_self (same : st.queue l = entries) : setLevel l entries st = st := by
  cases st
  simp only [setLevel,State.mk.injEq,and_self,and_true]
  funext other
  split
  · next here => rw [here,← same]
  · rfl

omit [DecidableEq V] in
theorem setLevel_setLevel (before : List (Option V)) :
    setLevel l entries (setLevel l before st) = setLevel l entries st := by
  simp only [setLevel,State.mk.injEq,and_self,and_true]
  funext other
  split <;> rfl

end Levels

section Counts

variable {level : V → ℤ} {visitor : List V → V → List V} {st st' : State V} {fuel : Nat} {toLevel : ℤ}

@[simp] theorem enqueue_visitCount (v : V) : (enqueue level st v).visitCount = st.visitCount := by
  unfold enqueue
  split <;> rfl

@[simp] theorem foldl_enqueue_visitCount (vs : List V) : (vs.foldl (enqueue level) st).visitCount = st.visitCount := by
  induction vs generalizing st with
  | nil => rfl
  | cons v rest ih => simp [ih]

@[simp] theorem visitVertex_visitCount (v : V) : (visitVertex level visitor st v).visitCount = st.visitCount := by
  simp [visitVertex]

@[simp] theorem foldl_visitEntry_visitCount (entries : List (Option V)) :
    (entries.foldl (visitEntry level visitor) st).visitCount = st.visitCount := by
  induction entries generalizing st with
  | nil => rfl
  | cons entry rest ih => cases entry <;> simp [ih,visitEntry]

theorem visitLevelParallel_visitCount {threadCount : Nat} {schedule : Schedule V} {l : ℤ}
    (run : visitLevelParallel level visitor threadCount schedule l st = some st') : st'.visitCount = st.visitCount := by
  unfold visitLevelParallel at run
  split at run
  · dsimp only at run
    split at run
    · cases run
      simp [setLevel]
    · cases run
  · cases run
    simp [setLevel]

theorem parallelLoop_visitCount {threadCount : Nat} {schedule : Schedule V}
    (run : parallelLoop level visitor threadCount schedule fuel toLevel st = some st') :
    st'.visitCount = st.visitCount := by
  induction fuel generalizing st with
  | zero => cases run
  | succ fuel ih =>
    rw [parallelLoop] at run
    split at run
    · split at run
      · exact (ih run).trans rfl
      · obtain ⟨next, first, rest⟩ := Option.bind_eq_some_iff.1 run
        exact ((ih rest).trans (visitLevelParallel_visitCount first)).trans rfl
    · cases run
      rfl

theorem popLevel_visitCount {l : ℤ} (run : popLevel level visitor fuel l st = some st') :
    st.visitCount ≤ st'.visitCount := by
  induction fuel generalizing st with
  | zero => cases run
  | succ fuel ih =>
    rw [popLevel] at run
    split at run
    · cases run
      exact le_rfl
    · have counted := ih run
      exact counted
    · have counted := ih run
      simp only [visitVertex_visitCount,setLevel] at counted
      omega

theorem popLevel_counts {l : ℤ} {v : V} (mem : some v ∈ st.queue l)
    (run : popLevel level visitor fuel l st = some st') :
    st.visitCount < st'.visitCount := by
  induction fuel generalizing st with
  | zero => cases run
  | succ fuel ih =>
    rw [popLevel] at run
    split at run
    · next last =>
      rw [List.getLast?_eq_none_iff.1 last] at mem
      cases mem
    · next last =>
      obtain ⟨front, split⟩ := List.getLast?_eq_some_iff.1 last
      have kept : some v ∈ (setLevel l (st.queue l).dropLast st).queue l := by simpa [setLevel,split] using mem
      have counted := ih kept run
      exact counted
    · have counted := popLevel_visitCount run
      simp only [visitVertex_visitCount,setLevel] at counted
      omega

theorem popLevel_holes {l : ℤ} (holes : ∀ entry ∈ st.queue l, entry = none)
    (run : popLevel level visitor fuel l st = some st') : st' = setLevel l [] st := by
  induction fuel generalizing st with
  | zero => cases run
  | succ fuel ih =>
    rw [popLevel] at run
    split at run
    · next last =>
      have same := Option.some.inj run
      rw [← same,setLevel_self (List.getLast?_eq_none_iff.1 last)]
    · have rest : ∀ entry ∈ (setLevel l (st.queue l).dropLast st).queue l, entry = none := by
        intro entry mem
        simp only [setLevel,if_true] at mem
        exact holes entry (List.dropLast_subset _ mem)
      rw [ih rest run,setLevel_setLevel]
    · next v last =>
      have isNone := holes (some v) (List.mem_of_getLast? last)
      cases isNone

theorem visit_visitCount (run : visit level visitor fuel toLevel st = some st') : st.visitCount ≤ st'.visitCount := by
  induction fuel generalizing st with
  | zero => cases run
  | succ fuel ih =>
    rw [visit] at run
    split at run
    · obtain ⟨next, first, rest⟩ := Option.bind_eq_some_iff.1 run
      exact (popLevel_visitCount first).trans (ih rest)
    · cases run
      exact le_rfl

theorem visit_counts {l : ℤ} {v : V} (mem : some v ∈ st.queue l) (first : st.firstLevel ≤ l) (last : l ≤ st.lastLevel)
    (upTo : l ≤ toLevel) (run : visit level visitor fuel toLevel st = some st') : st.visitCount < st'.visitCount := by
  induction fuel generalizing st with
  | zero => cases run
  | succ fuel ih =>
    have left : more toLevel st := ⟨first.trans last, first.trans upTo⟩
    rw [visit,if_pos left] at run
    obtain ⟨next, here, rest⟩ := Option.bind_eq_some_iff.1 run
    by_cases vertex : ∃ w, some w ∈ st.queue st.firstLevel
    · obtain ⟨w, mem⟩ := vertex
      have counts : (incrLevel st).visitCount < next.visitCount := popLevel_counts mem here
      exact lt_of_lt_of_le counts (visit_visitCount rest)
    · have holes : ∀ entry ∈ (incrLevel st).queue st.firstLevel, entry = none := by
        intro entry mem
        cases entry with
        | none => rfl
        | some w => exact absurd ⟨w, mem⟩ vertex
      have ne : l ≠ st.firstLevel := by
        rintro rfl
        exact vertex ⟨v, mem⟩
      obtain rfl := popLevel_holes holes here
      have kept : some v ∈ (setLevel st.firstLevel [] (incrLevel st)).queue l := by
        simpa [setLevel,ne,incrLevel] using mem
      have later : (setLevel st.firstLevel [] (incrLevel st)).firstLevel ≤ l :=
        Int.add_one_le_iff.2 (lt_of_le_of_ne first ne.symm)
      have counted := ih kept later last rest
      exact counted

theorem foldl_visitEntry_holes {entries : List (Option V)} (holes : ∀ entry ∈ entries, entry = none) :
    entries.foldl (visitEntry level visitor) st = st := by
  induction entries with
  | nil => rfl
  | cons entry rest ih =>
    obtain rfl := holes entry List.mem_cons_self
    exact ih fun other mem => holes other (List.mem_cons_of_mem _ mem)

omit [DecidableEq V] in
theorem mem_of_mem_chunks {threadCount : Nat} {entries : List (Option V)} {chunk : List (Option V)} {entry : Option V}
    (isChunk : chunk ∈ chunks threadCount entries) (mem : entry ∈ chunk) : entry ∈ entries := by
  obtain ⟨k, _, rfl⟩ := List.mem_map.1 isChunk
  dsimp only at mem
  split at mem
  · exact List.mem_of_mem_drop mem
  · exact List.mem_of_mem_drop (List.mem_of_mem_take mem)

theorem visitLevelParallel_holes {threadCount : Nat} {schedule : Schedule V} {l : ℤ}
    (holes : ∀ entry ∈ st.queue l, entry = none) :
    visitLevelParallel level visitor threadCount schedule l st = some (setLevel l [] st) := by
  unfold visitLevelParallel
  split
  · simp [foldl_visitEntry_holes holes]
  · refine congrArg some (congrArg (setLevel l []) (foldl_visitEntry_holes ?_))
    intro entry mem
    obtain ⟨chunk, isChunk, inside⟩ := List.mem_flatten.1 mem
    exact holes entry (mem_of_mem_chunks ((schedule.perm _ _).mem_iff.1 isChunk) inside)

omit [DecidableEq V] in
theorem Idle.next (idle : Idle toLevel st) : Idle toLevel (setLevel st.firstLevel [] (incrLevel st)) := by
  intro l first last upTo entry mem
  have first : st.firstLevel + 1 ≤ l := first
  have ne : l ≠ st.firstLevel := by omega
  have mem : entry ∈ st.queue l := by simpa [setLevel,ne,incrLevel] using mem
  exact idle l (by omega) last upTo entry mem

theorem parallelLoop_idle {threadCount : Nat} {schedule : Schedule V} (idle : Idle toLevel st)
    (run : visit level visitor fuel toLevel st = some st') :
    parallelLoop level visitor threadCount schedule fuel toLevel st = some st' := by
  induction fuel generalizing st with
  | zero => cases run
  | succ fuel ih =>
    rw [visit] at run
    rw [parallelLoop]
    split at run
    · next left =>
      rw [if_pos left]
      obtain ⟨next, here, rest⟩ := Option.bind_eq_some_iff.1 run
      have holes : ∀ entry ∈ (incrLevel st).queue st.firstLevel, entry = none := idle st.firstLevel le_rfl left.1 left.2
      obtain rfl := popLevel_holes holes here
      have rest := ih idle.next rest
      by_cases empty : st.queue st.firstLevel = []
      · have same : setLevel st.firstLevel [] (incrLevel st) = incrLevel st := setLevel_self empty
        rw [if_pos empty,← same]
        exact rest
      · rw [if_neg empty,visitLevelParallel_holes holes]
        exact rest
    · next stop => simpa [if_neg stop] using run

end Counts

omit [DecidableEq V] in
def inOrder : Schedule V where
  order := fun _ chunks => chunks
  perm := fun _ chunks => List.Perm.refl chunks

omit [DecidableEq V] in
theorem SameVisits.refl (st : State V) : SameVisits st st := ⟨.rfl, fun _ => .rfl, rfl⟩

/-- A visit that returns is matched by the parallel one exactly with one thread or when no vertex waits. -/
theorem visitParallel_agrees (level : V → ℤ) (visitor : List V → V → List V) (threadCount fuel : Nat) (toLevel : ℤ)
    (st seq : State V) (run : visit level visitor fuel toLevel st = some seq) :
    Agrees level visitor threadCount toLevel st seq ↔ threadCount = 1 ∨ Idle toLevel st := by
  constructor
  · intro agrees
    by_cases one : threadCount = 1
    · exact .inl one
    refine .inr fun l first last upTo entry mem => ?_
    cases entry with
    | none => rfl
    | some v =>
      obtain ⟨_, par, parallel, _, count⟩ := agrees inOrder
      rw [visitParallel,if_pos (first.trans last),if_neg one] at parallel
      have counts := visit_counts mem first last upTo run
      have same := parallelLoop_visitCount parallel
      omega
  · intro good schedule
    refine ⟨fuel, seq, ?_, SameVisits.refl seq, rfl⟩
    unfold visitParallel
    by_cases some' : st.firstLevel ≤ st.lastLevel
    · rw [if_pos some']
      split
      · exact run
      · next several => exact parallelLoop_idle (good.resolve_left several) run
    · rw [if_neg some']
      cases fuel with
      | zero => cases run
      | succ fuel =>
        rw [visit,if_neg fun left => some' left.1] at run
        exact run

section Upward

variable {level : V → ℤ} {adj : V → List V} {st st' st₁ st₂ : State V} {l : ℤ} {cleared added : List V}

/-- Every vertex waits at its level. -/
def Filed (level : V → ℤ) (st : State V) : Prop := ∀ l v, some v ∈ st.queue l → level v = l

/-- The vertices of `cleared` at level `l` left the queue and those of `added` above it entered unless they were
there. -/
structure Effect (level : V → ℤ) (l : ℤ) (cleared added : List V) (st st' : State V) : Prop where
  low : ∀ v ∈ cleared, level v = l
  high : ∀ v ∈ added, l < level v
  visited : st'.visited = st.visited ++ cleared
  inQueue : ∀ v, st'.inQueue v = ((st.inQueue v && decide (v ∉ cleared)) || decide (v ∈ added))
  vertex : ∀ l' v, (st'.queue l').count (some v) =
    (st.queue l').count (some v) + if level v = l' ∧ st.inQueue v = false ∧ v ∈ added then 1 else 0
  hole : ∀ l', (st'.queue l').count none = (st.queue l').count none
  last : ∀ m, st'.lastLevel ≤ m ↔ st.lastLevel ≤ m ∧ ∀ v ∈ added, st.inQueue v = false → level v ≤ m
  first : ∀ m, m ≤ st'.firstLevel ↔ m ≤ st.firstLevel ∧ ∀ v ∈ added, st.inQueue v = false → m ≤ level v

theorem Effect.refl (st : State V) : Effect level l [] [] st st := by constructor <;> simp

theorem Effect.count (effect : Effect level l cleared added st st') (n : Nat) :
    Effect level l cleared added st { st' with visitCount := n } :=
  ⟨effect.low, effect.high, effect.visited, effect.inQueue, effect.vertex, effect.hole, effect.last, effect.first⟩

theorem Effect.trans {cleared' added' : List V} (one : Effect level l cleared added st st₁)
    (two : Effect level l cleared' added' st₁ st₂) : Effect level l (cleared ++ cleared') (added ++ added') st st₂ := by
  have apart : ∀ v, v ∈ added ++ added' → v ∉ cleared ++ cleared' := by
    intro v isAdded isCleared
    have high : l < level v := (List.mem_append.1 isAdded).elim (one.high v) (two.high v)
    have low : level v = l := (List.mem_append.1 isCleared).elim (one.low v) (two.low v)
    omega
  have flag : ∀ v, v ∈ added' → (st₁.inQueue v = false ↔ st.inQueue v = false ∧ v ∉ added) := by
    intro v mem
    have := apart v (List.mem_append_right _ mem)
    simp only [List.mem_append,not_or] at this
    rw [one.inQueue]
    simp [this.1]
  constructor
  · exact fun v mem => (List.mem_append.1 mem).elim (one.low v) (two.low v)
  · exact fun v mem => (List.mem_append.1 mem).elim (one.high v) (two.high v)
  · rw [two.visited,one.visited,List.append_assoc]
  · intro v
    rw [two.inQueue,one.inQueue]
    have := apart v
    by_cases inAdded : v ∈ added
    · have : v ∉ cleared' := fun mem => this (List.mem_append_left _ inAdded) (List.mem_append_right _ mem)
      simp [inAdded,this]
    · simp [inAdded,Bool.and_assoc]
  · intro l' v
    rw [two.vertex,one.vertex,Nat.add_assoc]
    congr 1
    by_cases inAdded' : v ∈ added'
    · have := flag v inAdded'
      by_cases inAdded : v ∈ added <;> by_cases atLevel : level v = l' <;> simp_all
    · simp [inAdded']
  · intro l'
    rw [two.hole,one.hole]
  · intro m
    rw [two.last,one.last]
    constructor
    · rintro ⟨⟨last, first⟩, second⟩
      refine ⟨last, fun v mem free => ?_⟩
      rcases List.mem_append.1 mem with mem | mem
      · exact first v mem free
      · by_cases before : v ∈ added
        · exact first v before free
        · exact second v mem ((flag v mem).2 ⟨free, before⟩)
    · rintro ⟨last, all⟩
      exact ⟨⟨last, fun v mem free => all v (List.mem_append_left _ mem) free⟩,
        fun v mem free => all v (List.mem_append_right _ mem) ((flag v mem).1 free).1⟩
  · intro m
    rw [two.first,one.first]
    constructor
    · rintro ⟨⟨start, first⟩, second⟩
      refine ⟨start, fun v mem free => ?_⟩
      rcases List.mem_append.1 mem with mem | mem
      · exact first v mem free
      · by_cases before : v ∈ added
        · exact first v before free
        · exact second v mem ((flag v mem).2 ⟨free, before⟩)
    · rintro ⟨start, all⟩
      exact ⟨⟨start, fun v mem free => all v (List.mem_append_left _ mem) free⟩,
        fun v mem free => all v (List.mem_append_right _ mem) ((flag v mem).1 free).1⟩

theorem Effect.enqueue {v : V} (high : l < level v) : Effect level l [] [v] st (enqueue level st v) := by
  unfold Bfs.enqueue
  cases flag : st.inQueue v with
  | true =>
    constructor <;> simp only [if_true,List.mem_singleton,List.append_nil,forall_eq,List.not_mem_nil,not_false_eq_true,
      decide_true,Bool.and_true,flag,Bool.true_eq_false,false_implies,and_true,implies_true]
    · exact high
    · intro other
      by_cases same : other = v
      · simp [same,flag]
      · simp [same]
    · intro l' other
      by_cases same : other = v
      · simp [same,flag]
      · simp [same]
  | false =>
    constructor <;> simp only [Bool.false_eq_true,if_false,List.mem_singleton,List.append_nil,forall_eq,
      List.not_mem_nil,
      not_false_eq_true,decide_true,Bool.and_true,flag,forall_const,implies_true,false_implies]
    · exact high
    · intro other
      by_cases same : other = v <;> simp [same]
    · intro l' other
      by_cases here : l' = level v
      · subst here
        by_cases same : other = v
        · simp [same,flag]
        · simp [same,Ne.symm same]
      · by_cases same : other = v
        · simp [same,here,Ne.symm here]
        · simp [same,here]
    · intro l'
      split <;> simp
    · intro m
      split <;> omega
    · intro m
      split <;> omega

theorem Effect.enqueueAll {vs : List V} (high : ∀ v ∈ vs, l < level v) :
    Effect level l [] vs st (vs.foldl (Bfs.enqueue level) st) := by
  induction vs generalizing st with
  | nil => exact Effect.refl st
  | cons v rest ih =>
    have one : Effect level l [] [v] st (Bfs.enqueue level st v) := Effect.enqueue (high v List.mem_cons_self)
    exact one.trans (ih fun w mem => high w (List.mem_cons_of_mem _ mem))

theorem Effect.visitVertex {v : V} (here : level v = l) (upward : ∀ x ∈ adj v, level v < level x) :
    Effect level l [v] (adj v) st (visitVertex level (fun _ => adj) st v) := by
  have clear : Effect level l [v] [] st
      { st with inQueue := fun other => if other = v then false else st.inQueue other, visited := st.visited ++ [v] }
        := by
    constructor <;> simp only [List.mem_singleton,forall_eq,List.not_mem_nil,false_implies,implies_true,decide_false,
      Bool.or_false,
      and_false,if_false,Nat.add_zero,and_true]
    · exact here
    · intro other
      by_cases same : other = v <;> simp [same]
  exact clear.trans (Effect.enqueueAll fun x mem => here ▸ upward x mem)

theorem Effect.visitAll {order : List V} (here : ∀ v ∈ order, level v = l)
    (upward : ∀ v, ∀ x ∈ adj v, level v < level x) :
    Effect level l order (order.flatMap adj) st (order.foldl (Bfs.visitVertex level fun _ => adj) st) := by
  induction order generalizing st with
  | nil => exact Effect.refl st
  | cons v rest ih =>
    have one : Effect level l [v] (adj v) st (Bfs.visitVertex level (fun _ => adj) st v) :=
      Effect.visitVertex (here v List.mem_cons_self) (upward v)
    exact one.trans (ih fun w mem => here w (List.mem_cons_of_mem _ mem))

/-- The queue is the same but for the order within the levels and of the visits. -/
structure SameState (st st' : State V) : Prop extends SameVisits st st' where
  firstLevel : st.firstLevel = st'.firstLevel
  lastLevel : st.lastLevel = st'.lastLevel

theorem SameState.effect {cleared' added' : List V} (same : SameState st st')
    (one : Effect level l cleared added st st₁)
    (two : Effect level l cleared' added' st' st₂) (perm : cleared.Perm cleared') (permAdded : added.Perm added') :
    SameState st₁ st₂ := by
  constructor
  · constructor
    · rw [one.visited,two.visited]
      exact same.visited.append perm
    · intro l'
      rw [List.perm_iff_count]
      intro entry
      have before := List.perm_iff_count.1 (same.queue l') entry
      cases entry with
      | none => rw [one.hole,two.hole,before]
      | some v => simp only [one.vertex,two.vertex,before,same.inQueue,permAdded.mem_iff]
    · funext v
      rw [one.inQueue,two.inQueue,same.inQueue]
      simp only [perm.mem_iff,permAdded.mem_iff]
  · refine eq_of_forall_le_iff fun m => ?_
    rw [one.first,two.first,same.firstLevel,same.inQueue]
    simp only [permAdded.mem_iff]
  · refine eq_of_forall_ge_iff fun m => ?_
    rw [one.last,two.last,same.lastLevel,same.inQueue]
    simp only [permAdded.mem_iff]

theorem Effect.filed (filed : Filed level st) (effect : Effect level l cleared added st st') : Filed level st' := by
  intro l' v mem
  by_cases before : some v ∈ st.queue l'
  · exact filed l' v before
  · have counted := effect.vertex l' v
    rw [List.count_eq_zero_of_not_mem before] at counted
    split at counted
    · next inserted => exact inserted.1
    · rw [Nat.add_zero,List.count_eq_zero] at counted
      exact absurd mem counted

omit [DecidableEq V] in
theorem Filed.setLevel (filed : Filed level st) {entries : List (Option V)}
    (sub : ∀ v, some v ∈ entries → some v ∈ st.queue l) :
    Filed level (setLevel l entries st) := by
  intro l' v mem
  simp only [Bfs.setLevel] at mem
  split at mem
  · next same => exact filed l' v (same ▸ sub v mem)
  · exact filed l' v mem

theorem enqueue_setLevel {entries : List (Option V)} {v : V} (apart : level v ≠ l) :
    setLevel l entries (Bfs.enqueue level st v) = Bfs.enqueue level (setLevel l entries st) v := by
  unfold Bfs.enqueue
  by_cases flag : st.inQueue v
  · simp [flag,setLevel]
  · have queue : (fun other => if other = l then entries else if other = level v then st.queue other ++ [some v]
      else st.queue other) =
        fun other => if other = level v then (if other = l then entries else st.queue other) ++ [some v]
          else if other = l then entries else st.queue other := by
      funext other
      by_cases here : other = l
      · simp [here,apart.symm]
      · simp [here]
    simp only [flag,setLevel,Bool.false_eq_true,if_false,queue]
    rfl

theorem enqueue_queue {v : V} (apart : level v ≠ l) : (Bfs.enqueue level st v).queue l = st.queue l := by
  unfold Bfs.enqueue
  split
  · rfl
  · simp [apart.symm]

theorem foldl_enqueue_setLevel (st : State V) (entries : List (Option V)) {vs : List V}
    (apart : ∀ v ∈ vs, level v ≠ l) :
    setLevel l entries (vs.foldl (Bfs.enqueue level) st) = vs.foldl (Bfs.enqueue level) (setLevel l entries st) ∧
      (vs.foldl (Bfs.enqueue level) st).queue l = st.queue l := by
  induction vs generalizing st with
  | nil => exact ⟨rfl, rfl⟩
  | cons v rest ih =>
    obtain ⟨commute, queue⟩ := ih (Bfs.enqueue level st v) fun w mem => apart w (List.mem_cons_of_mem _ mem)
    have here := apart v List.mem_cons_self
    simp only [List.foldl_cons]
    rw [commute,queue,enqueue_setLevel here,enqueue_queue here]
    exact ⟨rfl, rfl⟩

theorem visitVertex_setLevel (st : State V) (entries : List (Option V)) {v : V} (here : level v = l)
    (upward : ∀ x ∈ adj v, level v < level x) :
    setLevel l entries (Bfs.visitVertex level (fun _ => adj) st v) =
    Bfs.visitVertex level (fun _ => adj) (setLevel l entries st) v ∧
      (Bfs.visitVertex level (fun _ => adj) st v).queue l = st.queue l := by
  have apart : ∀ x ∈ adj v, level x ≠ l := by
    intro x mem
    have := upward x mem
    omega
  exact foldl_enqueue_setLevel
    { st with inQueue := fun other => if other = v then false else st.inQueue other, visited := st.visited ++ [v] }
      entries apart

theorem visitAll_setLevel (st : State V) (entries : List (Option V)) {order : List V} (here : ∀ v ∈ order, level v = l)
    (upward : ∀ v, ∀ x ∈ adj v, level v < level x) :
    setLevel l entries (order.foldl (Bfs.visitVertex level fun _ => adj) st) =
      order.foldl (Bfs.visitVertex level fun _ => adj) (setLevel l entries st) ∧
      (order.foldl (Bfs.visitVertex level fun _ => adj) st).queue l = st.queue l := by
  induction order generalizing st with
  | nil => exact ⟨rfl, rfl⟩
  | cons v rest ih =>
    obtain ⟨commute, queue⟩ := ih (Bfs.visitVertex level (fun _ => adj) st v) fun w mem =>
      here w (List.mem_cons_of_mem _ mem)
    obtain ⟨first, kept⟩ := visitVertex_setLevel st entries (here v List.mem_cons_self) (upward v)
    simp only [List.foldl_cons]
    rw [commute,queue,first,kept]
    exact ⟨rfl, rfl⟩

theorem foldl_visitEntry (entries : List (Option V)) (visitor : List V → V → List V) :
    entries.foldl (visitEntry level visitor) st = entries.reduceOption.foldl (Bfs.visitVertex level visitor) st := by
  induction entries generalizing st with
  | nil => rfl
  | cons entry rest ih =>
    cases entry with
    | none => simpa [visitEntry] using ih
    | some v => simpa [visitEntry] using ih

omit [DecidableEq V] in
theorem mem_reduceOption_level (filed : Filed level st) : ∀ v ∈ (st.queue l).reduceOption, level v = l :=
  fun v mem => filed l v (List.reduceOption_mem_iff.1 mem)

/-- The sequential loop visits the vertices of the level from the back, whatever it counts. -/
theorem popLevel_spec (st : State V) {fuel : Nat} (upward : ∀ v, ∀ x ∈ adj v, level v < level x)
    (filed : Filed level st) (run : popLevel level (fun _ => adj) fuel l st = some st') :
    ∃ next count, Effect level l (st.queue l).reduceOption.reverse ((st.queue l).reduceOption.reverse.flatMap adj)
      (setLevel l [] st) next ∧ st' = { next with visitCount := count } := by
  induction fuel generalizing st with
  | zero => cases run
  | succ fuel ih =>
    rw [popLevel] at run
    split at run
    · next last =>
      have empty := List.getLast?_eq_none_iff.1 last
      refine ⟨st, st.visitCount, ?_, (Option.some.inj run).symm⟩
      rw [empty,setLevel_self empty]
      exact Effect.refl st
    · next last =>
      obtain ⟨front, split⟩ := List.getLast?_eq_some_iff.1 last
      have shorter : Filed level (setLevel l (st.queue l).dropLast st) :=
        filed.setLevel fun v mem => List.dropLast_subset _ mem
      obtain ⟨next, count, effect, rfl⟩ := ih _ shorter run
      refine ⟨next, count, ?_, rfl⟩
      rw [setLevel_setLevel] at effect
      simpa [setLevel,split,List.reduceOption_append] using effect
    · next v last =>
      obtain ⟨front, split⟩ := List.getLast?_eq_some_iff.1 last
      have here : level v = l := filed l v (List.mem_of_getLast? last)
      have shorter : Filed level (setLevel l (st.queue l).dropLast st) :=
        filed.setLevel fun v mem => List.dropLast_subset _ mem
      have front_queue : (setLevel l (st.queue l).dropLast st).queue l = front := by simp [setLevel,split]
      obtain ⟨commute, kept⟩ := visitVertex_setLevel (setLevel l (st.queue l).dropLast st) [] here (upward v)
      rw [setLevel_setLevel] at commute
      rw [front_queue] at kept
      set visited := Bfs.visitVertex level (fun _ => adj) (setLevel l (st.queue l).dropLast st) v
      have one : Effect level l [v] (adj v) (setLevel l (st.queue l).dropLast st)
        { visited with visitCount := visited.visitCount + 1 } :=
        (Effect.visitVertex here (upward v)).count _
      obtain ⟨next, count, rest, rfl⟩ := ih _ (one.filed shorter) run
      refine ⟨next, count, ?_, rfl⟩
      have first : Effect level l [v] (adj v) (setLevel l [] st)
          (setLevel l [] { visited with visitCount := visited.visitCount + 1 }) := by
        have cleared : Effect level l [v] (adj v) (setLevel l [] st)
            { Bfs.visitVertex level (fun _ => adj) (setLevel l [] st) v with visitCount := visited.visitCount + 1 } :=
          (Effect.visitVertex here (upward v)).count _
        rw [← commute] at cleared
        exact cleared
      have whole := first.trans rest
      simpa [kept,split,List.reduceOption_append] using whole

omit [DecidableEq V] in
theorem flatten_chunks {threadCount : Nat} (entries : List (Option V)) (positive : 0 < threadCount) :
    (chunks threadCount entries).flatten = entries := by
  obtain ⟨n, rfl⟩ : ∃ n, threadCount = n + 1 := ⟨threadCount - 1, by omega⟩
  have runs : ∀ k, ((List.range k).map fun k =>
      (entries.drop (k * (entries.length / (n + 1)))).take (entries.length / (n + 1))).flatten =
        entries.take (k * (entries.length / (n + 1))) := by
    intro k
    induction k with
    | zero => simp
    | succ k ih => simp [List.range_succ,ih,Nat.succ_mul,List.take_add]
  have before : (List.range n).map (fun k =>
      let rest := entries.drop (k * (entries.length / (n + 1)))
      if k = n + 1 - 1 then rest else rest.take (entries.length / (n + 1))) =
      (List.range n).map fun k => (entries.drop (k * (entries.length / (n + 1)))).take (entries.length / (n + 1)) := by
    refine List.map_congr_left fun k mem => ?_
    have : k < n := List.mem_range.1 mem
    exact if_neg (by omega)
  rw [chunks,List.range_succ,List.map_append,List.flatten_append,before,runs]
  simp

/-- However the chunks run, the vertices of the level are visited and the level is empty afterwards. -/
theorem visitLevelParallel_spec (st : State V) (l : ℤ) {threadCount : Nat} (schedule : Schedule V)
    (positive : 0 < threadCount) (upward : ∀ v, ∀ x ∈ adj v, level v < level x) (filed : Filed level st) :
    ∃ order next, visitLevelParallel level (fun _ => adj) threadCount schedule l st = some next ∧
      order.Perm (st.queue l).reduceOption ∧ Effect level l order (order.flatMap adj) (setLevel l [] st) next := by
  have inLevel : ∀ v ∈ (st.queue l).reduceOption, level v = l := mem_reduceOption_level filed
  unfold visitLevelParallel
  split
  · have all := visitAll_setLevel st [] inLevel upward
    simp only [foldl_visitEntry,all.2,if_true]
    exact ⟨(st.queue l).reduceOption, _, rfl, .rfl, all.1 ▸ Effect.visitAll inLevel upward⟩
  · have whole : (schedule.order st.visited (chunks threadCount (st.queue l))).flatten.Perm (st.queue l) := by
      have perm := (schedule.perm st.visited (chunks threadCount (st.queue l))).flatten
      rwa [flatten_chunks _ positive] at perm
    have perm : (schedule.order st.visited (chunks threadCount (st.queue l))).flatten.reduceOption.Perm
      (st.queue l).reduceOption :=
      whole.filterMap id
    have here := fun v mem => inLevel v (perm.mem_iff.1 mem)
    have all := visitAll_setLevel st [] here upward
    rw [foldl_visitEntry]
    exact ⟨_, _, rfl, perm, all.1 ▸ Effect.visitAll here upward⟩

omit [DecidableEq V] in
theorem SameState.setLevel (same : SameState st st') :
    SameState (setLevel l [] (incrLevel st)) (setLevel l [] (incrLevel st')) where
  visited := same.visited
  queue l' := by
    simp only [Bfs.setLevel,incrLevel]
    split
    · exact .rfl
    · exact same.queue l'
  inQueue := same.inQueue
  firstLevel := congrArg (· + 1) same.firstLevel
  lastLevel := same.lastLevel

omit [DecidableEq V] in
theorem SameState.count (same : SameState st st') (n : Nat) : SameState { st with visitCount := n } st' :=
  ⟨⟨same.visited, same.queue, same.inQueue⟩, same.firstLevel, same.lastLevel⟩

theorem parallelLoop_same {threadCount fuel : Nat} {toLevel : ℤ} (schedule : Schedule V) (positive : 0 < threadCount)
    (upward : ∀ v, ∀ x ∈ adj v, level v < level x) (filed : Filed level st) (same : SameState st st')
    (run : visit level (fun _ => adj) fuel toLevel st = some st₁) :
    ∃ par, parallelLoop level (fun _ => adj) threadCount schedule fuel toLevel st' = some par ∧ SameState st₁ par := by
  induction fuel generalizing st st' with
  | zero => cases run
  | succ fuel ih =>
    have left_iff : more toLevel st' ↔ more toLevel st := by rw [more,more,same.firstLevel,same.lastLevel]
    rw [visit] at run
    rw [parallelLoop]
    by_cases left : more toLevel st
    · rw [if_pos left] at run
      rw [if_pos (left_iff.2 left)]
      obtain ⟨next, here, rest⟩ := Option.bind_eq_some_iff.1 run
      have filed' : Filed level st' := fun l v mem => filed l v ((same.queue l).mem_iff.2 mem)
      obtain ⟨next, count, effect, rfl⟩ := popLevel_spec (incrLevel st) upward filed here
      have filedHere : Filed level (incrLevel st) := filed
      have filedNext : Filed level { next with visitCount := count } :=
        (effect.count count).filed (filedHere.setLevel fun _ mem => absurd mem List.not_mem_nil)
      rw [← same.firstLevel]
      have step : ∃ par, (if st'.queue st.firstLevel = [] then some (incrLevel st')
          else visitLevelParallel level (fun _ => adj) threadCount schedule st.firstLevel (incrLevel st')) = some par ∧
            SameState next par := by
        by_cases empty : st'.queue st.firstLevel = []
        · rw [if_pos empty]
          refine ⟨_, rfl, ?_⟩
          have none : st.queue st.firstLevel = [] := List.Perm.eq_nil (empty ▸ same.queue st.firstLevel)
          have stay : setLevel st.firstLevel [] (incrLevel st') = incrLevel st' := setLevel_self empty
          rw [← stay]
          have nothing : Effect level st.firstLevel [] [] (setLevel st.firstLevel [] (incrLevel st')) _ := Effect.refl _
          refine same.setLevel.effect effect nothing ?_ ?_ <;> simp [incrLevel,none]
        · rw [if_neg empty]
          obtain ⟨order, par, run, perm, effect'⟩ :=
            visitLevelParallel_spec (incrLevel st') st.firstLevel schedule positive upward filed'
          refine ⟨par, run, ?_⟩
          have perm : (st.queue st.firstLevel).reduceOption.reverse.Perm order :=
            (List.reverse_perm _).trans (((same.queue st.firstLevel).filterMap id).trans perm.symm)
          exact same.setLevel.effect effect effect' perm (perm.flatMap_right adj)
      obtain ⟨par, run', same'⟩ := step
      obtain ⟨last, runLast, sameLast⟩ := ih filedNext (same'.count count) rest
      refine ⟨last, ?_, sameLast⟩
      split at run'
      · next empty =>
        cases run'
        rw [if_pos empty]
        exact runLast
      · next nonempty =>
        rw [if_neg nonempty,run']
        exact runLast
    · rw [if_neg left] at run
      rw [if_neg (left_iff.not.2 left)]
      cases run
      exact ⟨st', rfl, same⟩

/-- Visits that only reach higher levels leave the same queue and visit the same vertices on any number of threads. -/
theorem visitParallel_upward {threadCount fuel : Nat} {toLevel : ℤ} (schedule : Schedule V) (positive : 0 < threadCount)
    (upward : ∀ v, ∀ x ∈ adj v, level v < level x) (filed : Filed level st)
    (run : visit level (fun _ => adj) fuel toLevel st = some st₁) :
    ∃ par, visitParallel level (fun _ => adj) threadCount schedule fuel toLevel st = some par ∧ SameVisits st₁ par := by
  unfold visitParallel
  by_cases nonempty : st.firstLevel ≤ st.lastLevel
  · rw [if_pos nonempty]
    split
    · exact ⟨st₁, run, SameVisits.refl st₁⟩
    · obtain ⟨par, parallel, same⟩ :=
        parallelLoop_same schedule positive upward filed ⟨SameVisits.refl st, rfl, rfl⟩ run
      exact ⟨par, parallel, same.toSameVisits⟩
  · rw [if_neg nonempty]
    cases fuel with
    | zero => cases run
    | succ fuel =>
      rw [visit,if_neg fun left => nonempty left.1] at run
      cases run
      exact ⟨st, rfl, SameVisits.refl st⟩

/-- Two vertices at level 0 enqueue one each at level 1. The second thread may come first. -/
theorem visitParallel_upward_twoLevels :
    let level : ℕ → ℤ := fun v => v / 2
    let adj : ℕ → List ℕ := fun v => if v < 2 then [v + 2] else []
    let st : State ℕ := ⟨fun l => if l = 0 then [some 0, some 1] else [], fun v => decide (v < 2), 0, 0, [], 0⟩
    ∀ schedule, ∃ seq par, visit level (fun _ => adj) 8 1 st = some seq ∧
      visitParallel level (fun _ => adj) 2 schedule 8 1 st = some par ∧ SameVisits seq par := by
  intro level adj st schedule
  have upward : ∀ v, ∀ x ∈ adj v, level v < level x := by
    intro v x mem
    simp only [adj,level] at mem ⊢
    split at mem
    · rw [List.mem_singleton.mp mem]
      omega
    · cases mem
  have filed : Filed level st := by
    intro l v mem
    simp only [st] at mem
    split at mem
    · simp only [List.mem_cons,Option.some.injEq,List.not_mem_nil,or_false] at mem
      simp only [level]
      omega
    · cases mem
  have run : visit level (fun _ => adj) 8 1 st = some _ := rfl
  obtain ⟨par, parallel, same⟩ := visitParallel_upward schedule Nat.two_pos upward filed run
  exact ⟨_, par, run, parallel, same⟩

end Upward

/-- Two threads drop the vertex that a visit adds to its own level, leave its flag set and count nothing. -/
theorem visitParallel_drops :
    let st : State Nat := ⟨fun l => if l = 0 then [some 0, some 1] else [], fun v => decide (v < 2), 0, 0, [], 0⟩
    let visitor : List Nat → Nat → List Nat := fun _ v => if v = 0 then [2] else []
    ∃ seq, visit (fun _ => 0) visitor 6 0 st = some seq ∧ ¬ Agrees (fun _ => 0) visitor 2 0 st seq ∧
      ∃ par, visitParallel (fun _ => 0) visitor 2 inOrder 6 0 st = some par ∧
        2 ∈ seq.visited ∧ 2 ∉ par.visited ∧ par.queue 0 = [] ∧ par.inQueue 2 = true ∧ seq.visitCount = 3 ∧
          par.visitCount = 0 := by
  refine ⟨_, rfl, fun agrees => ?_, _, rfl, by decide, by decide, rfl, rfl, rfl, rfl⟩
  obtain ⟨fuel, par, run, _, count⟩ := agrees inOrder
  have none := parallelLoop_visitCount run
  rw [← count] at none
  cases none

theorem visitParallel_agrees_one :
    let st : State Nat := ⟨fun l => if l = 0 then [some 0, some 1] else [], fun v => decide (v < 2), 0, 0, [], 0⟩
    let visitor : List Nat → Nat → List Nat := fun _ v => if v = 0 then [2] else []
    ∃ seq, visit (fun _ => 0) visitor 6 0 st = some seq ∧
      (Agrees (fun _ => 0) visitor 1 0 st seq ↔ (1 = 1 ∨ Idle 0 st)) :=
  ⟨_, rfl, visitParallel_agrees _ _ 1 6 0 _ _ rfl⟩

end GTPower.Bfs
