import Mathlib.Data.List.Nodup
import Mathlib.Logic.Function.Basic
import Mathlib.Tactic.Common

/-! Groups of elements that are found alike: an element is compared with the earlier ones of its hash, and joins the
group of the first that is like it. -/
namespace GTPower

/-- A group goes by the element it was made for. -/
structure HashGroups (C H : Type*) where
  bucket : H → List C
  groupOf : C → Option C
  members : C → List C

namespace HashGroups
variable {C H : Type*} [DecidableEq C] [DecidableEq H]

def empty : HashGroups C H := ⟨fun _ => [], fun _ => none, fun _ => []⟩

/-- The group of `a`, which is made if it has none, gets one more element. -/
def join (s : HashGroups C H) (a cell : C) : HashGroups C H :=
  match s.groupOf a with
  | some g => { s with
      groupOf := Function.update s.groupOf cell (some g)
      members := Function.update s.members g (s.members g ++ [cell]) }
  | none => { s with
      groupOf := Function.update (Function.update s.groupOf a (some a)) cell (some a)
      members := Function.update s.members a [a, cell] }

def push (s : HashGroups C H) (hash : H) (cell : C) : HashGroups C H :=
  { s with bucket := Function.update s.bucket hash (s.bucket hash ++ [cell]) }

def add (alike : C → C → Bool) (hash : H) (s : HashGroups C H) (cell : C) : HashGroups C H :=
  match (s.bucket hash).find? (alike · cell) with
  | some a => (s.join a cell).push hash cell
  | none => s.push hash cell

def group (s : HashGroups C H) (cell : C) : List C :=
  match s.groupOf cell with
  | some g => s.members g
  | none => []

def Together (s : HashGroups C H) (a b : C) : Prop := ∃ g, s.groupOf a = some g ∧ s.groupOf b = some g

/-- What holds once the elements `done` are grouped. -/
structure Grouped (hashOf : C → H) (done : List C) (s : HashGroups C H) : Prop where
  bucket_eq : ∀ hash, s.bucket hash = done.filter (hashOf · = hash)
  mem_members : ∀ a b, a ∈ s.members b ↔ s.groupOf a = some b
  known : ∀ a b, s.groupOf a = some b → a ∈ done
  own : ∀ a b, s.groupOf a = some b → s.groupOf b = some b
  hash_eq : ∀ a b, s.groupOf a = some b → hashOf a = hashOf b

variable {s : HashGroups C H} {alike : C → C → Bool} {hashOf : C → H} {done : List C} {a b cell : C}

section Relation
omit [DecidableEq C] [DecidableEq H]

theorem Together.symm (together : Together s a b) : Together s b a := together.imp fun _ both => both.symm

theorem Together.trans {c : C} (first : Together s a b) (second : Together s b c) : Together s a c := by
  obtain ⟨g, ofA, ofB⟩ := first
  obtain ⟨g', ofB', ofC⟩ := second
  obtain rfl : g = g' := Option.some.inj (ofB.symm.trans ofB')
  exact ⟨g, ofA, ofC⟩

end Relation

omit [DecidableEq C] in
theorem Grouped.mem_group (grouped : Grouped hashOf done s) (a b : C) : b ∈ s.group a ↔ Together s a b := by
  unfold group Together
  cases s.groupOf a with
  | none => simp
  | some g => simp [grouped.mem_members]

omit [DecidableEq C] in
theorem Grouped.together_hash (grouped : Grouped hashOf done s) (together : Together s a b) : hashOf a = hashOf b := by
  obtain ⟨g, ofA, ofB⟩ := together
  exact (grouped.hash_eq a g ofA).trans (grouped.hash_eq b g ofB).symm

omit [DecidableEq C] in
theorem grouped_empty : Grouped hashOf [] (empty : HashGroups C H) where
  bucket_eq _ := rfl
  mem_members a b := ⟨fun mem => absurd mem List.not_mem_nil, fun eq => by cases eq⟩
  known a b eq := by cases eq
  own a b eq := by cases eq
  hash_eq a b eq := by cases eq

section Join

omit [DecidableEq H] in
theorem groupOf_join (other : a ≠ cell) (c : C) :
    (s.join a cell).groupOf c = if c = cell ∨ c = a then some ((s.groupOf a).getD a) else s.groupOf c := by
  unfold join
  cases own : s.groupOf a with
  | none =>
    simp only [Function.update_apply,Option.getD_none]
    grind
  | some g =>
    simp only [Function.update_apply,Option.getD_some]
    grind

theorem Grouped.mem_members_join (grouped : Grouped hashOf done s) (new : s.groupOf cell = none)
    (other : a ≠ cell) (c g : C) :
    c ∈ (s.join a cell).members g ↔ (s.join a cell).groupOf c = some g := by
  rw [groupOf_join other]
  unfold join
  have members := grouped.mem_members
  have own := grouped.own
  cases ofA : s.groupOf a with
  | none =>
    simp only [Function.update_apply,Option.getD_none]
    have unused : ∀ c, s.groupOf c ≠ some a := by
      intro c eq
      rw [own c a eq] at ofA
      cases ofA
    split
    · next eq =>
      subst eq
      grind
    · grind
  | some g' =>
    simp only [Function.update_apply,Option.getD_some]
    split
    · next eq =>
      subst eq
      rw [List.mem_append,List.mem_singleton,members]
      grind
    · grind

theorem Grouped.together_join (grouped : Grouped hashOf done s) {m : C} (other : m ≠ cell) (aOther : a ≠ cell)
    (bOther : b ≠ cell) (differ : a ≠ b) : Together (s.join m cell) a b ↔ Together s a b := by
  have own := grouped.own
  unfold Together
  simp only [groupOf_join other]
  cases ofM : s.groupOf m with
  | none => grind
  | some g => grind

theorem Grouped.together_join_self (grouped : Grouped hashOf done s) {m : C} (other : m ≠ cell) (aOther : a ≠ cell) :
    Together (s.join m cell) a cell ↔ a = m ∨ Together s a m := by
  have own := grouped.own
  unfold Together
  simp only [groupOf_join other]
  cases ofM : s.groupOf m with
  | none => grind
  | some g => grind

end Join

/-- An element joins the group of the first in its bucket that is like it, or has no group. -/
theorem Grouped.add_cases (grouped : Grouped hashOf done s) (alike : C → C → Bool) (cell : C) :
    (∃ m ∈ done, hashOf m = hashOf cell ∧ alike m cell ∧
    s.add alike (hashOf cell) cell = (s.join m cell).push (hashOf cell) cell) ∨
      ((∀ m ∈ done, hashOf m = hashOf cell → ¬alike m cell) ∧
        s.add alike (hashOf cell) cell = s.push (hashOf cell) cell) := by
  unfold add
  rw [grouped.bucket_eq]
  cases found : (done.filter (hashOf · = hashOf cell)).find? (alike · cell) with
  | none =>
    right
    refine ⟨fun m mem same => ?_, rfl⟩
    exact List.find?_eq_none.1 found m (List.mem_filter.2 ⟨mem, by simpa using same⟩)
  | some m =>
    left
    obtain ⟨mem, same⟩ := List.mem_filter.1 (List.mem_of_find?_eq_some found)
    have likes := List.find?_some found
    exact ⟨m, mem, by simpa using same, likes, rfl⟩

omit [DecidableEq C] in
theorem Grouped.push (grouped : Grouped hashOf done s) :
    Grouped hashOf (done ++ [cell]) (s.push (hashOf cell) cell) where
  bucket_eq hash := by
    simp only [HashGroups.push,Function.update_apply,List.filter_append,grouped.bucket_eq]
    by_cases here : hash = hashOf cell
    · simp [here]
    · simp [here,Ne.symm here]
  mem_members := grouped.mem_members
  known a b eq := List.mem_append_left _ (grouped.known a b eq)
  own := grouped.own
  hash_eq := grouped.hash_eq

theorem Grouped.join_push (grouped : Grouped hashOf done s) (new : cell ∉ done) {m : C} (mem : m ∈ done)
    (same : hashOf m = hashOf cell) : Grouped hashOf (done ++ [cell]) ((s.join m cell).push (hashOf cell) cell) := by
  have other : m ≠ cell := fun eq => new (eq ▸ mem)
  have alone : s.groupOf cell = none := by
    cases eq : s.groupOf cell with
    | none => rfl
    | some g => exact absurd (grouped.known cell g eq) new
  have bucket : (s.join m cell).bucket = s.bucket := by
    unfold HashGroups.join
    split <;> rfl
  have own := grouped.own
  have hash_eq := grouped.hash_eq
  have known := grouped.known
  constructor
  · intro hash
    have added : Grouped hashOf (done ++ [cell]) (s.push (hashOf cell) cell) := grouped.push
    have pushed := added.bucket_eq hash
    simp only [HashGroups.push,bucket] at pushed ⊢
    exact pushed
  · exact grouped.mem_members_join alone other
  · intro a b eq
    have eq' : (s.join m cell).groupOf a = some b := eq
    rw [groupOf_join other] at eq'
    simp only [List.mem_append,List.mem_singleton]
    grind
  · intro a b eq
    have eq' : (s.join m cell).groupOf a = some b := eq
    show (s.join m cell).groupOf b = some b
    rw [groupOf_join other] at eq' ⊢
    cases ofM : s.groupOf m with
    | none => grind
    | some g => grind
  · intro a b eq
    have eq' : (s.join m cell).groupOf a = some b := eq
    rw [groupOf_join other] at eq'
    cases ofM : s.groupOf m with
    | none => grind
    | some g => grind

theorem Grouped.add (grouped : Grouped hashOf done s) (alike : C → C → Bool) (new : cell ∉ done) :
    Grouped hashOf (done ++ [cell]) (s.add alike (hashOf cell) cell) := by
  rcases grouped.add_cases alike cell with ⟨m, mem, same, -, eq⟩ | ⟨-, eq⟩
  · rw [eq]
    exact grouped.join_push new mem same
  · rw [eq]
    exact grouped.push

def ofList (alike : C → C → Bool) (hashOf : C → H) (cells : List C) : HashGroups C H :=
  cells.foldl (fun s cell => s.add alike (hashOf cell) cell) empty

theorem Grouped.foldl (alike : C → C → Bool) {rest : List C} (grouped : Grouped hashOf done s)
    (nodup : (done ++ rest).Nodup) :
    Grouped hashOf (done ++ rest) (rest.foldl (fun s cell => s.add alike (hashOf cell) cell) s) := by
  induction rest generalizing done s with
  | nil => simpa using grouped
  | cons cell rest ih =>
    have new : cell ∉ done := fun mem => List.disjoint_of_nodup_append nodup mem (.head _)
    rw [List.append_cons] at nodup ⊢
    exact ih (grouped.add alike new) nodup

theorem grouped_ofList (alike : C → C → Bool) {cells : List C} (nodup : cells.Nodup) :
    Grouped hashOf cells (ofList alike hashOf cells) := by
  have start : Grouped hashOf [] (empty : HashGroups C H) := grouped_empty
  exact start.foldl alike nodup

def Divides (alike : C → C → Bool) (done : List C) (s : HashGroups C H) : Prop :=
  ∀ a ∈ done, ∀ b ∈ done, a ≠ b → (Together s a b ↔ alike a b)

/-- The relation is one of equality between different elements, and the hash respects it. -/
structure Respected (alike : C → C → Bool) (hashOf : C → H) (cells : List C) : Prop where
  symm : ∀ a ∈ cells, ∀ b ∈ cells, a ≠ b → alike a b → alike b a
  trans : ∀ a ∈ cells, ∀ b ∈ cells, ∀ c ∈ cells, a ≠ b → b ≠ c → a ≠ c → alike a b → alike b c → alike a c
  hash_eq : ∀ a ∈ cells, ∀ b ∈ cells, a ≠ b → alike a b → hashOf a = hashOf b

theorem Divides.add {all : List C} (divides : Divides alike done s) (grouped : Grouped hashOf done s)
    (new : cell ∉ done) (respected : Respected alike hashOf all) (inside : ∀ a ∈ done ++ [cell], a ∈ all) :
    Divides alike (done ++ [cell]) (s.add alike (hashOf cell) cell) := by
  have last : cell ∈ all := inside cell (by simp)
  have early : ∀ a ∈ done, a ∈ all := fun a mem => inside a (List.mem_append_left _ mem)
  have apart : ∀ a ∈ done, a ≠ cell := fun a mem eq => new (eq ▸ mem)
  -- it is enough to look at the pairs of the new element
  suffices here : (∀ a ∈ done, ∀ b ∈ done, a ≠ b → (Together (s.add alike (hashOf cell) cell) a b ↔ Together s a b)) ∧
      ∀ a ∈ done, Together (s.add alike (hashOf cell) cell) a cell ↔ alike a cell by
    intro a memA b memB differ
    rcases List.mem_append.1 memA with memA | memA
    · rcases List.mem_append.1 memB with memB | memB
      · exact (here.1 a memA b memB differ).trans (divides a memA b memB differ)
      · rw [List.mem_singleton.1 memB]
        exact here.2 a memA
    · rw [List.mem_singleton.1 memA] at differ ⊢
      rcases List.mem_append.1 memB with memB | memB
      · constructor
        · intro together
          exact respected.symm b (early b memB) cell last (apart b memB) ((here.2 b memB).1 together.symm)
        · intro likes
          exact ((here.2 b memB).2 (respected.symm cell last b (early b memB) differ likes)).symm
      · exact absurd (List.mem_singleton.1 memB).symm differ
  rcases grouped.add_cases alike cell with ⟨m, mem, same, likes, eq⟩ | ⟨none, eq⟩
  · rw [eq]
    refine ⟨fun a memA b memB differ => grouped.together_join (apart m mem) (apart a memA) (apart b memB) differ,
      fun a memA => ?_⟩
    refine (grouped.together_join_self (apart m mem) (apart a memA)).trans ?_
    by_cases first : a = m
    · rw [first]
      exact ⟨fun _ => likes, fun _ => .inl rfl⟩
    · rw [or_iff_right first,divides a memA m mem first]
      have back := respected.symm m (early m mem) cell last (apart m mem) likes
      constructor
      · intro likesM
        exact respected.trans a (early a memA) m (early m mem) cell last first (apart m mem) (apart a memA) likesM likes
      · intro likesCell
        exact respected.trans a (early a memA) cell last m (early m mem) (apart a memA) (apart m mem).symm first
          likesCell back
  · rw [eq]
    refine ⟨fun _ _ _ _ _ => Iff.rfl, fun a memA => ?_⟩
    constructor
    · rintro ⟨g, -, own⟩
      exact absurd (grouped.known cell g own) new
    · intro likes
      exact absurd likes (none a memA (respected.hash_eq a (early a memA) cell last (apart a memA) likes))

theorem Divides.foldl {all rest : List C} (divides : Divides alike done s) (grouped : Grouped hashOf done s)
    (nodup : (done ++ rest).Nodup) (respected : Respected alike hashOf all) (inside : ∀ a ∈ done ++ rest, a ∈ all) :
    Divides alike (done ++ rest) (rest.foldl (fun s cell => s.add alike (hashOf cell) cell) s) := by
  induction rest generalizing done s with
  | nil => simpa using divides
  | cons cell rest ih =>
    have new : cell ∉ done := fun mem => List.disjoint_of_nodup_append nodup mem (.head _)
    rw [List.append_cons] at nodup inside ⊢
    exact ih (divides.add grouped new respected fun a mem => inside a (List.mem_append_left _ mem))
      (grouped.add alike new) nodup inside

theorem divides_iff {cells : List C} (nodup : cells.Nodup) :
    Divides alike cells (ofList alike hashOf cells) ↔ Respected alike hashOf cells := by
  have grouped : Grouped hashOf cells (ofList alike hashOf cells) := grouped_ofList alike nodup
  constructor
  · intro divides
    constructor
    · intro a memA b memB differ likes
      exact (divides b memB a memA differ.symm).1 ((divides a memA b memB differ).2 likes).symm
    · intro a memA b memB c memC ab bc ac likesAB likesBC
      exact (divides a memA c memC ac).1
        (((divides a memA b memB ab).2 likesAB).trans ((divides b memB c memC bc).2 likesBC))
    · intro a memA b memB differ likes
      exact grouped.together_hash ((divides a memA b memB differ).2 likes)
  · intro respected
    have start : Divides alike [] (empty : HashGroups C H) := fun a mem => absurd mem List.not_mem_nil
    exact start.foldl grouped_empty nodup respected fun _ mem => mem

end HashGroups

end GTPower
