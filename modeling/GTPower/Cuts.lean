import Mathlib

/-! Cutting a list behind every item with which the weight since the last cut exceeds a limit, and spans
between consecutive cuts. -/
namespace GTPower.Cuts

section Split
variable {α : Type*} (weight : α → Nat) (limit : Nat)

def total (items : List α) : Nat := (items.map weight).sum

/-- Consecutive groups, each as short as it can be with a weight above the limit, and what is left. -/
structure Split (groups : List (List α)) (rest items : List α) : Prop where
  whole : groups.flatten ++ rest = items
  heavy : ∀ group ∈ groups, limit < total weight group
  shortest : ∀ group ∈ groups, total weight group.dropLast ≤ limit
  left : total weight rest ≤ limit

variable {weight limit}

theorem total_append (front back : List α) : total weight (front ++ back) = total weight front + total weight back := by
  rw [total,List.map_append,List.sum_append]
  rfl

theorem Split.nil : Split weight limit [] [] [] := by
  constructor
  · rfl
  · simp
  · simp
  · exact Nat.zero_le _

theorem Split.push (split : Split weight limit groups rest items) (fits : total weight (rest ++ [item]) ≤ limit) :
    Split weight limit groups (rest ++ [item]) (items ++ [item]) where
  whole := by rw [← split.whole,List.append_assoc]
  heavy := split.heavy
  shortest := split.shortest
  left := fits

theorem Split.cut (split : Split weight limit groups rest items) (exceeds : limit < total weight (rest ++ [item])) :
    Split weight limit (groups ++ [rest ++ [item]]) [] (items ++ [item]) := by
  constructor
  · rw [← split.whole]
    simp
  · intro group mem
    rcases List.mem_append.mp mem with old | last
    · exact split.heavy group old
    · rwa [List.mem_singleton.mp last]
  · intro group mem
    rcases List.mem_append.mp mem with old | last
    · exact split.shortest group old
    · rw [List.mem_singleton.mp last,List.dropLast_concat]
      exact split.left
  · exact Nat.zero_le _

theorem Split.last (split : Split weight limit groups rest (items ++ [item])) :
    (∃ rest', rest = rest' ++ [item] ∧ Split weight limit groups rest' items) ∨
    ∃ groups' rest', rest = [] ∧ groups = groups' ++ [rest' ++ [item]] ∧ Split weight limit groups' rest' items := by
  rcases List.eq_nil_or_concat rest with rfl | ⟨rest', final, rfl⟩
  · right
    have whole := split.whole
    rw [List.append_nil] at whole
    rcases List.eq_nil_or_concat groups with rfl | ⟨groups', group, rfl⟩
    · exact absurd whole (by simp)
    · rw [List.concat_eq_append] at split whole ⊢
      have heavy := split.heavy group (by simp)
      have shortest := split.shortest group (by simp)
      rcases List.eq_nil_or_concat group with rfl | ⟨rest', final, rfl⟩
      · exact absurd heavy (Nat.not_lt_zero _)
      · rw [List.concat_eq_append] at heavy shortest whole ⊢
        rw [List.dropLast_concat] at shortest
        rw [List.flatten_append,List.flatten_singleton,← List.append_assoc] at whole
        obtain ⟨front, same⟩ := List.append_inj' whole rfl
        obtain rfl := (List.cons.inj same).1
        exact ⟨groups', rest', rfl, rfl, front, fun group mem => split.heavy group (List.mem_append_left _ mem),
          fun group mem => split.shortest group (List.mem_append_left _ mem), shortest⟩
  · left
    rw [List.concat_eq_append] at split ⊢
    have whole := split.whole
    rw [← List.append_assoc] at whole
    obtain ⟨front, same⟩ := List.append_inj' whole rfl
    obtain rfl := (List.cons.inj same).1
    have left := split.left
    rw [total_append] at left
    exact ⟨rest', rfl, front, split.heavy, split.shortest, Nat.le_of_add_right_le left⟩

theorem Split.unique (split : Split weight limit groups rest items) (split' : Split weight limit groups' rest' items) :
    groups = groups' ∧ rest = rest' := by
  induction items using List.reverseRecOn generalizing groups rest groups' rest' with
  | nil =>
    have empty : ∀ {groups : List (List α)} {rest : List α}, Split weight limit groups rest [] → groups = [] ∧
      rest = [] := by
      intro groups rest split
      obtain ⟨flat, left⟩ := List.append_eq_nil_iff.mp split.whole
      refine ⟨List.eq_nil_iff_forall_not_mem.mpr fun group mem => ?_, left⟩
      have heavy := split.heavy group mem
      rw [List.flatten_eq_nil_iff.mp flat group mem] at heavy
      exact absurd heavy (Nat.not_lt_zero _)
    obtain ⟨rfl, rfl⟩ := empty split
    obtain ⟨rfl, rfl⟩ := empty split'
    exact ⟨rfl, rfl⟩
  | append_singleton items item ih =>
    rcases split.last with ⟨front, rfl, before⟩ | ⟨others, front, rfl, rfl, before⟩ <;>
      rcases split'.last with ⟨front', rfl, before'⟩ | ⟨others', front', rfl, rfl, before'⟩ <;>
      obtain ⟨rfl, rfl⟩ := ih before before'
    · exact ⟨rfl, rfl⟩
    · have heavy := split'.heavy _ (List.mem_append_right _ (List.mem_singleton_self _))
      exact absurd split.left (Nat.not_le.mpr heavy)
    · have heavy := split.heavy _ (List.mem_append_right _ (List.mem_singleton_self _))
      exact absurd split'.left (Nat.not_le.mpr heavy)
    · exact ⟨rfl, rfl⟩

end Split

section Spans
variable {α β : Type*}

def spans : α → List α → List (α × α)
  | _, [] => []
  | start, cut :: rest => (start, cut) :: spans cut rest

theorem spans_concat (start : α) (cuts : List α) (cut : α) :
    spans start (cuts ++ [cut]) = spans start cuts ++ [(cuts.getLast?.getD start, cut)] := by
  induction cuts generalizing start with
  | nil => rfl
  | cons first rest ih =>
    rw [List.cons_append,spans,spans,ih,List.getLast?_cons]
    rfl

theorem lastEnd_spans (start : α) (cuts : List α) :
    ((spans start cuts).getLast?.map Prod.snd).getD start = cuts.getLast?.getD start := by
  rcases List.eq_nil_or_concat cuts with rfl | ⟨front, cut, rfl⟩
  · rfl
  · rw [List.concat_eq_append,spans_concat]
    simp

theorem map_spans (f : α → β) (start : α) (cuts : List α) :
    (spans start cuts).map (Prod.map f f) = spans (f start) (cuts.map f) := by
  induction cuts generalizing start with
  | nil => rfl
  | cons cut rest ih =>
    rw [spans,List.map_cons,ih]
    rfl

theorem forall_spans {p : α → α → Prop} (start : α) (cuts : List α) :
    (∀ span ∈ spans start cuts, p span.1 span.2) ↔ List.IsChain p (start :: cuts) := by
  induction cuts generalizing start with
  | nil => simp [spans]
  | cons cut rest ih => rw [spans,List.forall_mem_cons,ih,List.isChain_cons_cons]

theorem mem_spans {start point : Nat} {cuts : List Nat} (reached : start ≤ point)
    (before : point < cuts.getLast?.getD start) :
    ∃ span ∈ spans start cuts, span.1 ≤ point ∧ point < span.2 := by
  induction cuts generalizing start with
  | nil => exact absurd before (Nat.not_lt.mpr reached)
  | cons cut rest ih =>
    by_cases early : point < cut
    · exact ⟨_, List.mem_cons_self .., reached, early⟩
    · rw [List.getLast?_cons] at before
      obtain ⟨span, mem, inside⟩ := ih (Nat.le_of_not_lt early) before
      exact ⟨span, List.mem_cons_of_mem _ mem, inside⟩

def ends : Nat → List (List α) → List Nat
  | _, [] => []
  | start, group :: rest => (start + group.length) :: ends (start + group.length) rest

theorem ends_concat (start : Nat) (groups : List (List α)) (group : List α) :
    ends start (groups ++ [group]) = ends start groups ++ [start + (groups.flatten.length + group.length)] := by
  induction groups generalizing start with
  | nil => simp [ends]
  | cons first rest ih =>
    rw [List.cons_append,ends,ends,ih,List.flatten_cons,List.length_append]
    simp only [List.cons_append,Nat.add_assoc]

theorem getLast_ends (start : Nat) (groups : List (List α)) :
    (ends start groups).getLast?.getD start = start + groups.flatten.length := by
  rcases List.eq_nil_or_concat groups with rfl | ⟨front, group, rfl⟩
  · rfl
  · rw [List.concat_eq_append,ends_concat]
    simp

end Spans
end GTPower.Cuts
