import GTPower.ExceptionIndices

/-! The combinations of one object of each point of an exception, and which of them are visited: the visits share an
iterator over the through points, which is at its end when the first combination was visited. -/
namespace GTPower.ExceptionPath

section Combinations

/-- One object at a time; a point without objects has itself only. -/
def pointChoices (expanded : List ExceptionPt) (whole : ExceptionPt) : List ExceptionPt :=
  if expanded = [] then [whole] else expanded

theorem pointChoices_ne_nil (expanded : List ExceptionPt) (whole : ExceptionPt) : pointChoices expanded whole ≠ [] := by
  unfold pointChoices
  split
  · exact List.cons_ne_nil _ _
  · assumption

def thruChoices : List (List ExceptionPt) → List (List ExceptionPt)
  | [] => [[]]
  | choices :: rest => choices.flatMap fun single => (thruChoices rest).map (single :: ·)

def clones (exception : ExceptionPath) (froms : List (Option ExceptionPt)) (thrus : List (List ExceptionPt))
    (tos : List (Option ExceptionTo)) :
    List ExceptionPath :=
  froms.flatMap fun fromPt => thrus.flatMap fun thrus => tos.map fun toPt => exception.clone fromPt thrus toPt

/-- Every combination of one from object, one object of each -through and one to object. -/
def combinations (edges : ThruEdges) (exception : ExceptionPath) : List ExceptionPath :=
  exception.clones ((exception.fromPt.map fun pt => (pointChoices pt.expandFromTo pt.cloneFromTo).map some).getD [none])
    (thruChoices (exception.thrus.map fun thru => pointChoices (thru.expandThru edges) (thru.cloneThru edges)))
    ((exception.toPt.map fun pt => (pointChoices pt.expandFromTo pt.cloneFromTo).map fun single =>
      some { toExceptionPt := single, endRf := pt.endRf }).getD [none])

/-- Every point has objects, and no -through but the last one has several. -/
structure Expandable (edges : ThruEdges) (exception : ExceptionPath) : Prop where
  fromPt : ∀ pt, exception.fromPt = some pt → pt.expandFromTo ≠ []
  toPt : ∀ pt, exception.toPt = some pt → pt.expandFromTo ≠ []
  thrus : ∀ thru ∈ exception.thrus, thru.expandThru edges ≠ []
  single : ∀ thru ∈ exception.thrus.dropLast, (thru.expandThru edges).length = 1

end Combinations

section Thrus
variable {edges : ThruEdges}

theorem thruChoices_length {choices : List (List ExceptionPt)} {thrus : List ExceptionPt}
    (mem : thrus ∈ thruChoices choices) :
    thrus.length = choices.length := by
  induction choices generalizing thrus with
  | nil =>
    obtain rfl := List.mem_singleton.1 mem
    rfl
  | cons here rest ih =>
    obtain ⟨single, -, mem⟩ := List.mem_flatMap.1 mem
    obtain ⟨others, memOthers, rfl⟩ := List.mem_map.1 mem
    exact congrArg (· + 1) (ih memOthers)

theorem thruChoices_ne_nil {choices : List (List ExceptionPt)} (some : ∀ here ∈ choices, here ≠ []) :
    thruChoices choices ≠ [] := by
  induction choices with
  | nil => exact List.cons_ne_nil _ _
  | cons here rest ih =>
    obtain ⟨first, others⟩ := List.forall_mem_cons.1 some
    obtain ⟨single, tail, rfl⟩ := List.exists_cons_of_ne_nil first
    simpa [thruChoices] using fun empty => absurd empty (ih others)

/-- The visits of an object of a point, with the points that are left to the ones before. -/
def visitObject (edges : ThruEdges) (fuel : ℕ) (expanded : List ExceptionPt)
    (found : List (List ExceptionPt) × List ExceptionPt)
    (single : ExceptionPt) : List (List ExceptionPt) × List ExceptionPt :=
  (found.1 ++ (expandThrus edges fuel found.2 (expanded ++ [single])).1,
    (expandThrus edges fuel found.2 (expanded ++ [single])).2)

theorem expandThrus_cons (edges : ThruEdges) (fuel : ℕ) (thru : ExceptionPt) (left expanded : List ExceptionPt) :
    expandThrus edges (fuel + 1) (thru :: left) expanded =
    (thru.expandThru edges).foldl (visitObject edges fuel expanded) ([], left) := rfl

theorem expandThrus_nil (edges : ThruEdges) (fuel : ℕ) (expanded : List ExceptionPt) :
    expandThrus edges fuel [] expanded = ([expanded], []) := by
  cases fuel <;> rfl

theorem foldl_visitObject_nil (fuel : ℕ) (expanded singles : List ExceptionPt) (found : List (List ExceptionPt)) :
    singles.foldl (visitObject edges fuel expanded) (found, []) =
    (found ++ singles.map (fun single => expanded ++ [single]), []) := by
  induction singles generalizing found with
  | nil => simp
  | cons single rest ih =>
    rw [List.foldl_cons,visitObject,expandThrus_nil,ih]
    simp

theorem expandThrus_eq {thrus : List ExceptionPt} (objects : ∀ thru ∈ thrus, thru.expandThru edges ≠ [])
    (single : ∀ thru ∈ thrus.dropLast, (thru.expandThru edges).length = 1) (expanded : List ExceptionPt) :
    expandThrus edges thrus.length thrus expanded =
      ((thruChoices (thrus.map (ExceptionPt.expandThru edges))).map (expanded ++ ·), []) := by
  induction thrus generalizing expanded with
  | nil => simp [expandThrus,thruChoices]
  | cons thru rest ih =>
    obtain ⟨here, others⟩ := List.forall_mem_cons.1 objects
    cases rest with
    | nil =>
      rw [List.length_singleton,expandThrus_cons,foldl_visitObject_nil]
      simp [thruChoices,← List.map_eq_flatMap,Function.comp_def]
    | cons thru' rest =>
      rw [List.dropLast_cons_cons] at single
      obtain ⟨one, single⟩ := List.forall_mem_cons.1 single
      obtain ⟨first, one⟩ := List.length_eq_one_iff.1 one
      rw [List.length_cons,expandThrus_cons,one,List.foldl_cons,List.foldl_nil,visitObject,ih others single]
      simp [thruChoices,one]

/-- What the objects of a point add to the visits found before has at most the points that were left. -/
structure Visits (expanded : List ExceptionPt) (found found' : List (List ExceptionPt) × List ExceptionPt) : Prop where
  kept : ∀ result ∈ found.1, result ∈ found'.1
  added : ∀ result ∈ found'.1, result ∈ found.1 ∨ result.length ≤ expanded.length + 1 + found.2.length
  left : found'.2.length ≤ found.2.length

theorem foldl_visitObject {fuel : ℕ} {expanded : List ExceptionPt}
    (visits : ∀ single left,
      (∀ result ∈ (expandThrus edges fuel left (expanded ++ [single])).1,
      result.length ≤ expanded.length + 1 + left.length) ∧
      (expandThrus edges fuel left (expanded ++ [single])).2.length ≤ left.length) (singles : List ExceptionPt)
    (found : List (List ExceptionPt) × List ExceptionPt) :
    Visits expanded found (singles.foldl (visitObject edges fuel expanded) found) := by
  induction singles generalizing found with
  | nil => exact ⟨fun _ mem => mem, fun _ mem => .inl mem, le_refl _⟩
  | cons single rest ih =>
    obtain ⟨short, left⟩ := visits single found.2
    obtain ⟨kept, added, left'⟩ := ih (visitObject edges fuel expanded found single)
    refine ⟨fun result mem => kept result (List.mem_append_left _ mem), fun result mem => ?_, left'.trans left⟩
    rcases added result mem with old | new
    · rcases List.mem_append.1 old with older | here
      · exact .inl older
      · exact .inr (short result here)
    · exact .inr (new.trans (Nat.add_le_add_left left _))

theorem expandThrus_length (fuel : ℕ) (left expanded : List ExceptionPt) :
    (∀ result ∈ (expandThrus edges fuel left expanded).1, result.length ≤ expanded.length + left.length) ∧
      (expandThrus edges fuel left expanded).2.length ≤ left.length := by
  induction fuel generalizing left expanded with
  | zero => simp [expandThrus]
  | succ fuel ih =>
    cases left with
    | nil => simp [expandThrus]
    | cons thru left =>
      have visits := @foldl_visitObject edges fuel expanded (fun single left => by
        have bound := ih left (expanded ++ [single])
        rwa [List.length_append,List.length_singleton] at bound) (thru.expandThru edges) ([], left)
      rw [expandThrus_cons,List.length_cons]
      refine ⟨fun result mem => ?_, visits.left.trans (Nat.le_succ _)⟩
      rcases visits.added result mem with none | short
      · exact absurd none List.not_mem_nil
      · change result.length ≤ expanded.length + 1 + left.length at short
        omega

theorem visits_objects (fuel : ℕ) (expanded singles : List ExceptionPt)
    (found : List (List ExceptionPt) × List ExceptionPt) :
    Visits expanded found (singles.foldl (visitObject edges fuel expanded) found) := by
  apply foldl_visitObject
  intro single left
  have bound := @expandThrus_length edges fuel left (expanded ++ [single])
  rwa [List.length_append,List.length_singleton] at bound

theorem expandThrus_left (fuel : ℕ) (thru : ExceptionPt) (left expanded : List ExceptionPt) :
    (expandThrus edges (fuel + 1) (thru :: left) expanded).2.length ≤ left.length :=
  (visits_objects fuel expanded (thru.expandThru edges) ([], left)).left

/-- Where there are visits and all of them have every point, there is one object at each point but the last one. -/
theorem expandable_of_full {thrus expanded : List ExceptionPt}
    (visited : (expandThrus edges thrus.length thrus expanded).1 ≠ [])
    (full : ∀ result ∈ (expandThrus edges thrus.length thrus expanded).1,
      result.length = expanded.length + thrus.length) :
    (∀ thru ∈ thrus, thru.expandThru edges ≠ []) ∧ ∀ thru ∈ thrus.dropLast, (thru.expandThru edges).length = 1 := by
  induction thrus generalizing expanded with
  | nil => simp
  | cons thru rest ih =>
    rw [List.length_cons,expandThrus_cons] at visited full
    cases singles : thru.expandThru edges with
    | nil =>
      rw [singles] at visited
      exact absurd rfl visited
    | cons first others =>
      rw [singles,List.foldl_cons,visitObject,List.nil_append] at visited full
      cases rest with
      | nil => simp [singles]
      | cons thru' rest =>
        cases others with
        | nil =>
          rw [List.foldl_nil] at visited full
          obtain ⟨objects, single⟩ := ih visited fun result mem => by
            rw [full result mem,List.length_append,List.length_singleton]
            omega
          exact ⟨List.forall_mem_cons.2 ⟨by simp [singles], objects⟩,
            List.forall_mem_cons.2 ⟨by simp [singles], single⟩⟩
        | cons second others =>
          -- the second object is visited with fewer points
          exfalso
          let more := expandThrus edges (rest.length + 1) (thru' :: rest) (expanded ++ [first])
          have fewer : more.2.length ≤ rest.length := expandThrus_left _ _ _ _
          have visits := @visits_objects edges (rest.length + 1) expanded (second :: others) more
          have short : ∀ result ∈ ((second :: others).foldl (visitObject edges (rest.length + 1) expanded) more).1,
            result ∈ more.1 := by
            intro result mem
            refine (visits.added result mem).resolve_right fun short => ?_
            have := full result mem
            rw [List.length_cons] at this
            omega
          have some : more.1 ≠ [] := by
            intro none
            obtain ⟨result, mem⟩ := List.exists_mem_of_ne_nil _ visited
            have := short result mem
            rw [none] at this
            exact absurd this List.not_mem_nil
          obtain ⟨objects, single⟩ := ih some fun result mem => by
            rw [full result (visits.kept result mem),List.length_append,List.length_singleton]
            omega
          have atEnd : more.2 = [] := congrArg Prod.snd (expandThrus_eq objects single (expanded ++ [first]))
          have later := @visits_objects edges (rest.length + 1) expanded others
            (visitObject edges (rest.length + 1) expanded more second)
          have here : expanded ++ [second] ∈ (visitObject edges (rest.length + 1) expanded more second).1 := by
            apply List.mem_append_right
            rw [atEnd,expandThrus_nil]
            exact List.mem_singleton_self _
          have length := full _ (later.kept _ here)
          simp at length

end Thrus

section Exceptions
variable {edges : ThruEdges} {exception : ExceptionPath}

theorem mem_clones {froms : List (Option ExceptionPt)} {thrus : List (List ExceptionPt)}
    {tos : List (Option ExceptionTo)} {expand : ExceptionPath} :
    expand ∈ exception.clones froms thrus tos ↔
      ∃ fromPt ∈ froms, ∃ thru ∈ thrus, ∃ toPt ∈ tos, expand = exception.clone fromPt thru toPt := by
  simp only [clones,List.mem_flatMap,List.mem_map,eq_comm]

theorem clones_ne_nil {froms : List (Option ExceptionPt)} {thrus : List (List ExceptionPt)}
    {tos : List (Option ExceptionTo)} :
    exception.clones froms thrus tos ≠ [] ↔ froms ≠ [] ∧ thrus ≠ [] ∧ tos ≠ [] := by
  constructor
  · intro some
    obtain ⟨expand, mem⟩ := List.exists_mem_of_ne_nil _ some
    obtain ⟨fromPt, memFrom, thru, memThru, toPt, memTo, -⟩ := mem_clones.1 mem
    exact ⟨List.ne_nil_of_mem memFrom, List.ne_nil_of_mem memThru, List.ne_nil_of_mem memTo⟩
  · rintro ⟨someFrom, someThru, someTo⟩
    obtain ⟨fromPt, memFrom⟩ := List.exists_mem_of_ne_nil _ someFrom
    obtain ⟨thru, memThru⟩ := List.exists_mem_of_ne_nil _ someThru
    obtain ⟨toPt, memTo⟩ := List.exists_mem_of_ne_nil _ someTo
    exact List.ne_nil_of_mem (mem_clones.2 ⟨fromPt, memFrom, thru, memThru, toPt, memTo, rfl⟩)

def visitedFroms (exception : ExceptionPath) : List (Option ExceptionPt) :=
  (exception.fromPt.map fun pt => pt.expandFromTo.map some).getD [none]

def visitedTos (exception : ExceptionPath) : List (Option ExceptionTo) :=
  (exception.toPt.map fun pt => pt.expandFromTo.map fun single =>
    some { toExceptionPt := single, endRf := pt.endRf }).getD [none]

theorem expandException_eq (edges : ThruEdges) (exception : ExceptionPath) : exception.expandException edges =
    exception.clones exception.visitedFroms (expandThrus edges exception.thrus.length exception.thrus []).1
    exception.visitedTos := rfl

theorem visitedFroms_ne_nil : exception.visitedFroms ≠ [] ↔ ∀ pt, exception.fromPt = some pt →
    pt.expandFromTo ≠ [] := by
  unfold visitedFroms
  cases exception.fromPt <;> simp

theorem visitedTos_ne_nil : exception.visitedTos ≠ [] ↔ ∀ pt, exception.toPt = some pt → pt.expandFromTo ≠ [] := by
  unfold visitedTos
  cases exception.toPt <;> simp

theorem pointChoices_eq {expanded : List ExceptionPt} (some : expanded ≠ []) (whole : ExceptionPt) :
    pointChoices expanded whole = expanded :=
  if_neg some

theorem Expandable.expandException_eq (expandable : Expandable edges exception) :
    exception.expandException edges = exception.combinations edges := by
  have froms : ((exception.fromPt.map fun pt => (pointChoices pt.expandFromTo pt.cloneFromTo).map some).getD [none]) =
      exception.visitedFroms := by
    unfold visitedFroms
    cases here : exception.fromPt with
    | none => rfl
    | some pt => simp [pointChoices_eq (expandable.fromPt pt here)]
  have tos : ((exception.toPt.map fun pt => (pointChoices pt.expandFromTo pt.cloneFromTo).map fun single =>
      some { toExceptionPt := single, endRf := pt.endRf : ExceptionTo }).getD [none]) = exception.visitedTos := by
    unfold visitedTos
    cases here : exception.toPt with
    | none => rfl
    | some pt => simp [pointChoices_eq (expandable.toPt pt here)]
  have thrus : (exception.thrus.map fun thru => pointChoices (thru.expandThru edges) (thru.cloneThru edges)) =
      exception.thrus.map (ExceptionPt.expandThru edges) :=
    List.map_congr_left fun thru mem => pointChoices_eq (expandable.thrus thru mem) _
  rw [ExceptionPath.expandException_eq,expandThrus_eq expandable.thrus expandable.single]
  simp only [combinations,froms,tos,thrus,List.nil_append,List.map_id']

/-- Every combination is visited exactly once if and only if every point has objects and no -through but the last one
has several. -/
theorem expandException_perm_iff (edges : ThruEdges) (exception : ExceptionPath) :
    (exception.expandException edges).Perm (exception.combinations edges) ↔ Expandable edges exception := by
  constructor
  · intro perm
    have some : exception.combinations edges ≠ [] := by
      unfold combinations
      apply clones_ne_nil.2
      refine ⟨?_, thruChoices_ne_nil fun here mem => ?_, ?_⟩
      · cases exception.fromPt <;> simp [pointChoices_ne_nil]
      · obtain ⟨thru, -, rfl⟩ := List.mem_map.1 mem
        exact pointChoices_ne_nil _ _
      · cases exception.toPt <;> simp [pointChoices_ne_nil]
    have visited : exception.expandException edges ≠ [] := fun none => some (List.nil_perm.1 (none ▸ perm))
    obtain ⟨someFrom, someThru, someTo⟩ := clones_ne_nil.1 visited
    obtain ⟨fromPt, memFrom⟩ := List.exists_mem_of_ne_nil _ someFrom
    obtain ⟨toPt, memTo⟩ := List.exists_mem_of_ne_nil _ someTo
    obtain ⟨objects, single⟩ := expandable_of_full someThru fun result mem => by
      have visit : exception.clone fromPt result toPt ∈ exception.expandException edges :=
        mem_clones.2 ⟨fromPt, memFrom, result, mem, toPt, memTo, rfl⟩
      obtain ⟨fromPt', -, thru, memThru, toPt', -, same⟩ := mem_clones.1 (perm.mem_iff.1 visit)
      have eq : result = thru := congrArg ExceptionPath.thrus same
      rw [eq,thruChoices_length memThru,List.length_map,List.length_nil,Nat.zero_add]
    exact ⟨visitedFroms_ne_nil.1 someFrom, visitedTos_ne_nil.1 someTo, objects, single⟩
  · intro expandable
    rw [expandable.expandException_eq]

end Exceptions

end GTPower.ExceptionPath
