import Mathlib.Data.List.Sort

/-! The least elements of a list, so many of them and in order. A list that has so many up to a bound keeps them,
whatever comes in above the bound. -/
namespace GTPower.LeastElements

section Least
variable {α : Type*} [LinearOrder α] {count : ℕ} {a bound : α} {l l' m : List α}

def least (count : ℕ) (l : List α) : List α := (l.insertionSort (· ≤ ·)).take count

theorem sorted_least (count : ℕ) (l : List α) : (least count l).Pairwise (· ≤ ·) :=
  (List.pairwise_insertionSort (· ≤ ·) l).sublist (List.take_sublist count _)

theorem mem_of_mem_least (mem : a ∈ least count l) : a ∈ l :=
  (List.mem_insertionSort (· ≤ ·)).mp (List.mem_of_mem_take mem)

theorem length_least (count : ℕ) (l : List α) : (least count l).length = min count l.length := by
  rw [least,List.length_take,List.length_insertionSort]

theorem least_perm (count : ℕ) (perm : l.Perm l') : least count l = least count l' := by
  have sorted := ((List.perm_insertionSort (· ≤ ·) l).trans perm).trans (List.perm_insertionSort (· ≤ ·) l').symm
  have same : l.insertionSort (· ≤ ·) = l'.insertionSort (· ≤ ·) :=
    sorted.eq_of_pairwise' (List.pairwise_insertionSort _ l) (List.pairwise_insertionSort _ l')
  rw [least,same,least]

theorem take_orderedInsert (count : ℕ) (a : α) (l : List α) :
    (l.orderedInsert (· ≤ ·) a).take count = ((l.take count).orderedInsert (· ≤ ·) a).take count := by
  induction l generalizing count with
  | nil => simp
  | cons b l ih =>
    cases count with
    | zero => rfl
    | succ count =>
      rw [List.take_succ_cons,List.orderedInsert_cons,List.orderedInsert_cons]
      split
      case isTrue => cases count <;> simp [List.take_take]
      case isFalse => rw [List.take_succ_cons,List.take_succ_cons,ih]

theorem least_cons (count : ℕ) (a : α) (l : List α) :
    least count (a :: l) = ((least count l).orderedInsert (· ≤ ·) a).take count :=
  take_orderedInsert count a _

theorem least_append_congr (m : List α) (same : least count l = least count l') :
    least count (m ++ l) = least count (m ++ l') := by
  induction m with
  | nil => exact same
  | cons a m ih => rw [List.cons_append,List.cons_append,least_cons,least_cons,ih]

theorem least_least (count : ℕ) (l : List α) : least count (least count l) = least count l := by
  rw [least,(sorted_least count l).insertionSort_eq,least,List.take_take,min_self]

theorem least_least_append (count : ℕ) (l m : List α) : least count (least count l ++ m) = least count (l ++ m) := by
  calc least count (least count l ++ m)
    _ = least count (m ++ least count l) := least_perm count List.perm_append_comm
    _ = least count (m ++ l) := least_append_congr m (least_least count l)
    _ = least count (l ++ m) := least_perm count List.perm_append_comm

theorem least_of_length_le (few : l.length ≤ count) : least count l = l.insertionSort (· ≤ ·) :=
  List.take_of_length_le (by rwa [List.length_insertionSort])

theorem orderedInsert_above (above : ∀ b ∈ l, b < a) : l.orderedInsert (· ≤ ·) a = l ++ [a] := by
  induction l with
  | nil => rfl
  | cons b l ih =>
    obtain ⟨first, rest⟩ := List.forall_mem_cons.mp above
    rw [List.orderedInsert_of_not_le (· ≤ ·) _ (not_le.mpr first),ih rest,List.cons_append]

end Least

section Filled
variable {α : Type*} [LinearOrder α] {count : ℕ} {a bound : α} {l m : List α}

/-- So many elements are there up to the bound. -/
structure Filled (count : ℕ) (bound : α) (l : List α) : Prop where
  length : (least count l).length = count
  below : ∀ a ∈ least count l, a ≤ bound

theorem Filled.cons (filled : Filled count bound l) (a : α) : Filled count bound (a :: l) := by
  have many : count ≤ l.length := by
    have := filled.length
    rw [length_least] at this
    omega
  constructor
  case length =>
    rw [length_least,List.length_cons]
    omega
  case below =>
    intro b mem
    rw [least_cons] at mem
    by_cases under : ∃ c ∈ least count l, a ≤ c
    · obtain ⟨c, mem', le⟩ := under
      obtain rfl | inside := (List.mem_orderedInsert (· ≤ ·)).mp (List.mem_of_mem_take mem)
      · exact le.trans (filled.below c mem')
      · exact filled.below b inside
    · have above : ∀ c ∈ least count l, c < a := fun c mem' => not_le.mp fun le => under ⟨c, mem', le⟩
      rw [orderedInsert_above above,List.take_left' filled.length] at mem
      exact filled.below b mem

theorem Filled.append (filled : Filled count bound l) (m : List α) : Filled count bound (m ++ l) := by
  induction m with
  | nil => exact filled
  | cons a m ih => exact ih.cons a

theorem Filled.perm (filled : Filled count bound l) (perm : l.Perm m) : Filled count bound m := by
  have same := least_perm count perm
  exact ⟨same ▸ filled.length, same ▸ filled.below⟩

theorem Filled.above (filled : Filled count bound l) (above : bound < a) : least count (a :: l) = least count l := by
  rw [least_cons,orderedInsert_above fun b mem => (filled.below b mem).trans_lt above,List.take_left' filled.length]

theorem Filled.above_append (filled : Filled count bound l) (above : ∀ a ∈ m, bound < a) :
    least count (m ++ l) = least count l := by
  induction m with
  | nil => rfl
  | cons a m ih =>
    obtain ⟨first, rest⟩ := List.forall_mem_cons.mp above
    rw [List.cons_append,(filled.append m).above first,ih rest]

theorem Filled.between (filled : Filled count bound l) (above : ∀ a ∈ m, bound < a) (first rest : List α) :
    least count (l ++ (first ++ (m ++ rest))) = least count (l ++ (first ++ rest)) := by
  have front : (l ++ (first ++ (m ++ rest))).Perm (m ++ (first ++ rest ++ l)) := by
    apply (List.perm_append_comm).trans
    rw [← List.append_assoc m,← List.append_assoc first,← List.append_assoc m]
    exact ((List.perm_append_comm).append_right rest).append_right l
  rw [least_perm count front,(filled.append (first ++ rest)).above_append above]
  exact least_perm count List.perm_append_comm

theorem filled_least (many : count ≤ l.length) (last : (least count l).getLast? = some bound) :
    Filled count bound (least count l) := by
  constructor
  case length => rw [least_least,length_least,min_eq_left many]
  case below =>
    intro a mem
    rw [least_least] at mem
    obtain ⟨front, split⟩ := List.getLast?_eq_some_iff.mp last
    have sorted := sorted_least count l
    rw [split] at mem sorted
    obtain inside | atEnd := List.mem_append.mp mem
    · exact (List.pairwise_append.mp sorted).2.2 a inside bound (List.mem_singleton_self bound)
    · exact (List.mem_singleton.mp atEnd).le

end Filled
end GTPower.LeastElements
