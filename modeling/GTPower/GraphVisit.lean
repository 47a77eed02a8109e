import Mathlib.Data.Finset.Card
import Mathlib.Data.List.Basic
import Mathlib.Logic.Relation

/-! A depth first visit of a graph: from a node it goes through a list of items to report and nodes to visit, each node
once. With as many calls on the stack as there are nodes it reports what the nodes in reach have. -/
namespace GTPower.Visit

variable {ν π : Type*} [DecidableEq ν]

def visit (steps : ν → List (π ⊕ ν)) : ℕ → ν → List ν × List π → Option (List ν × List π)
  | 0, _, _ => none
  | fuel + 1, n, (visited, met) =>
    if n ∈ visited then some (visited, met)
    else (steps n).foldlM (fun found step =>
      match step with
      | .inl p => some (found.1, found.2 ++ [p])
      | .inr m => visit steps fuel m found) (n :: visited, met)

variable {steps : ν → List (π ⊕ ν)}

def Reach (steps : ν → List (π ⊕ ν)) : ν → ν → Prop := Relation.ReflTransGen fun n m => .inr m ∈ steps n

/-- From `before` to `after` the `items` are reported and everything in reach of `starts` is visited, and only that. -/
structure Grown (steps : ν → List (π ⊕ ν)) (starts : ν → Prop) (items : π → Prop) (before after : List ν × List π) :
    Prop where
  visited : ∀ n ∈ before.1, n ∈ after.1
  met : ∀ p ∈ before.2, p ∈ after.2
  started : ∀ n, starts n → n ∈ after.1
  reported : ∀ p, items p → p ∈ after.2
  closed : ∀ n ∈ after.1, n ∉ before.1 →
    (∃ s, starts s ∧ Reach steps s n) ∧ (∀ p, .inl p ∈ steps n → p ∈ after.2) ∧ ∀ m, .inr m ∈ steps n → m ∈ after.1
  found : ∀ p ∈ after.2, p ∈ before.2 ∨ items p ∨ ∃ s n, starts s ∧ Reach steps s n ∧ .inl p ∈ steps n

omit [DecidableEq ν] in
theorem Grown.trans {starts starts' : ν → Prop} {items items' : π → Prop} {a b c : List ν × List π}
    (first : Grown steps starts items a b) (second : Grown steps starts' items' b c) :
    Grown steps (fun n => starts n ∨ starts' n) (fun p => items p ∨ items' p) a c where
  visited n mem := second.visited n (first.visited n mem)
  met p mem := second.met p (first.met p mem)
  started n start := start.elim (fun start => second.visited n (first.started n start)) (second.started n)
  reported p item := item.elim (fun item => second.met p (first.reported p item)) (second.reported p)
  closed n mem new := by
    by_cases mid : n ∈ b.1
    · obtain ⟨⟨s, start, reach⟩, items, nodes⟩ := first.closed n mid new
      exact ⟨⟨s, .inl start, reach⟩, fun p item => second.met p (items p item), fun m node =>
        second.visited m (nodes m node)⟩
    · obtain ⟨⟨s, start, reach⟩, items, nodes⟩ := second.closed n mem mid
      exact ⟨⟨s, .inr start, reach⟩, items, nodes⟩
  found p mem := by
    rcases second.found p mem with mid | item | ⟨s, n, start, reach, item⟩
    · rcases first.found p mid with old | item | ⟨s, n, start, reach, item⟩
      · exact .inl old
      · exact .inr (.inl (.inl item))
      · exact .inr (.inr ⟨s, n, .inl start, reach, item⟩)
    · exact .inr (.inl (.inr item))
    · exact .inr (.inr ⟨s, n, .inr start, reach, item⟩)

omit [DecidableEq ν] in
theorem Grown.congr {starts starts' : ν → Prop} {items items' : π → Prop} {a b : List ν × List π}
    (grown : Grown steps starts items a b)
    (same : ∀ n, starts n ↔ starts' n) (same' : ∀ p, items p ↔ items' p) : Grown steps starts' items' a b := by
  rwa [← funext fun n => propext (same n),← funext fun p => propext (same' p)]

/-- A finite part of the graph that no edge leaves. -/
def Closed (steps : ν → List (π ⊕ ν)) (nodes : Finset ν) : Prop := ∀ n ∈ nodes, ∀ m, .inr m ∈ steps n → m ∈ nodes

theorem left_lt {nodes : Finset ν} {visited visited' : List ν} {n : ν} (mem : n ∈ nodes) (new : n ∉ visited)
    (grown : ∀ m ∈ n :: visited, m ∈ visited') :
    (nodes \ visited'.toFinset).card < (nodes \ visited.toFinset).card := by
  refine Finset.card_lt_card ((Finset.ssubset_iff_of_subset fun m left => ?_).2 ⟨n, by simp [mem,new], ?_⟩)
  · simp only [Finset.mem_sdiff,List.mem_toFinset] at left ⊢
    exact ⟨left.1, fun old => left.2 (grown m (List.mem_cons_of_mem n old))⟩
  · simpa using fun _ => grown n List.mem_cons_self

omit [DecidableEq ν] in
theorem loop_grown {call : ν → List ν × List π → Option (List ν × List π)} {base : List ν} {rest : List (π ⊕ ν)}
    (calls : ∀ m, .inr m ∈ rest → ∀ before, (∀ k ∈ base, k ∈ before.1) →
      ∃ after, call m before = some after ∧ Grown steps (· = m) (fun _ => False) before after)
    {before : List ν × List π} (start : ∀ k ∈ base, k ∈ before.1) :
    ∃ after, rest.foldlM (fun found step =>
        match step with
        | .inl p => some (found.1, found.2 ++ [p])
        | .inr m => call m found) before = some after ∧
      Grown steps (fun m => .inr m ∈ rest) (fun p => .inl p ∈ rest) before after := by
  induction rest generalizing before with
  | nil =>
    exact ⟨before, rfl, fun _ => id, fun _ => id, by simp, by simp, fun n mem new => absurd mem new, fun _ => .inl⟩
  | cons step rest ih =>
    have later := fun m (mem : .inr m ∈ rest) => calls m (List.mem_cons_of_mem step mem)
    cases step with
    | inl p =>
      have one : Grown steps (fun _ => False) (· = p) before (before.1, before.2 ++ [p]) :=
        ⟨fun _ => id, fun q mem => by simp [mem], by simp, by simp, fun n mem new => absurd mem new, fun q mem => by
          rcases List.mem_append.1 mem with old | new
          · exact .inl old
          · exact .inr (.inl (by simpa using new))⟩
      have start' : ∀ k ∈ base, k ∈ (before.1, before.2 ++ [p]).1 := start
      obtain ⟨after, run, grown⟩ := ih later start'
      exact ⟨after, run, (one.trans grown).congr (by simp) (by simp)⟩
    | inr m =>
      obtain ⟨mid, run, grown⟩ := calls m List.mem_cons_self before start
      obtain ⟨after, run', grown'⟩ := ih later fun k mem => grown.visited k (start k mem)
      refine ⟨after, ?_, (grown.trans grown').congr (by simp) (by simp)⟩
      rw [List.foldlM_cons]
      simpa [run] using run'

/-- A visit from a node of the part completes when more calls are left than nodes are not visited. -/
theorem visit_grown {nodes : Finset ν} (closed : Closed steps nodes) {fuel : ℕ} {n : ν} {before : List ν × List π}
    (mem : n ∈ nodes) (enough : (nodes \ before.1.toFinset).card < fuel) :
    ∃ after, visit steps fuel n before = some after ∧ Grown steps (· = n) (fun _ => False) before after := by
  induction fuel generalizing n before with
  | zero => omega
  | succ fuel ih =>
    obtain ⟨visited, met⟩ := before
    by_cases old : n ∈ visited
    · refine ⟨(visited, met), by
        simp [visit,old], fun _ => id, fun _ => id, by rintro _ rfl; exact old, by simp, ?_, fun _ => .inl⟩
      exact fun m mem new => absurd mem new
    obtain ⟨after, run, grown⟩ : ∃ after, (steps n).foldlM (fun found step =>
        match step with
        | .inl p => some (found.1, found.2 ++ [p])
        | .inr m => visit steps fuel m found) (n :: visited, met) = some after ∧
        Grown steps (fun m => .inr m ∈ steps n) (fun p => .inl p ∈ steps n) (n :: visited, met) after := by
      refine loop_grown (fun m node before (start : ∀ k ∈ n :: visited, k ∈ before.1) =>
        ih (closed n mem m node) ?_) fun _ => id
      have less := left_lt mem old start
      simp only at enough
      omega
    refine ⟨after, by simpa [visit,old] using run, fun m mem => grown.visited m (List.mem_cons_of_mem n mem), grown.met,
      ?_, by simp,
      fun m mem new => ?_, fun p mem => ?_⟩
    · rintro m rfl
      exact grown.visited m List.mem_cons_self
    · by_cases here : m = n
      · subst here
        exact ⟨⟨m, rfl, .refl⟩, grown.reported, grown.started⟩
      · obtain ⟨⟨s, start, reach⟩, items, nodes⟩ := grown.closed m mem (by simp [here,new])
        exact ⟨⟨n, rfl, .head start reach⟩, items, nodes⟩
    · rcases grown.found p mem with old | item | ⟨s, m, start, reach, item⟩
      · exact .inl old
      · exact .inr (.inr ⟨n, n, rfl, .refl, item⟩)
      · exact .inr (.inr ⟨n, m, rfl, .head start reach, item⟩)

theorem visit_spec {nodes : Finset ν} (closed : Closed steps nodes) {fuel : ℕ} {n : ν} (mem : n ∈ nodes)
    (enough : nodes.card < fuel) :
    ∃ visited met, visit steps fuel n ([], []) = some (visited, met) ∧ ∀ p, p ∈ met ↔ ∃ m, Reach steps n m ∧
    .inl p ∈ steps m := by
  obtain ⟨⟨visited, met⟩, run, grown⟩ :=
    visit_grown closed mem (show (nodes \ (([], []) : List ν × List π).1.toFinset).card < fuel by simpa using enough)
  refine ⟨visited, met, run, fun p => ⟨fun found => ?_, ?_⟩⟩
  · rcases grown.found p found with old | item | ⟨s, m, rfl, reach, item⟩
    · cases old
    · exact item.elim
    · exact ⟨m, reach, item⟩
  · rintro ⟨m, reach, item⟩
    have inside : m ∈ visited := by
      clear item
      induction reach with
      | refl => exact grown.started n rfl
      | tail _ node ih => exact (grown.closed _ ih (by simp)).2.2 _ node
    exact (grown.closed m inside (by simp)).2.1 p item

end GTPower.Visit
