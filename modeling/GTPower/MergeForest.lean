import Mathlib.Data.List.Dedup
import Mathlib.Data.List.Perm.Subperm
import Mathlib.Logic.Function.Basic
import Mathlib.Logic.Relation

/-! Nodes that are merged into one another: a node is a root or points to the node it was merged into, and a walk
follows the pointers up to a root. -/
namespace MergeForest

variable {ν : Type}

/-- The walk from a node over a list of nodes to a root. -/
inductive Walk (into : ν → Option ν) : ν → List ν → ν → Prop
  | final {node : ν} (here : into node = none) : Walk into node [node] node
  | onward {node next root : ν} {path : List ν} (points : into node = some next) (rest : Walk into next path root) :
      Walk into node (node :: path) root

def Ends (into : ν → Option ν) (node root : ν) : Prop := ∃ path, Walk into node path root

def follow (into : ν → Option ν) : Nat → ν → Option ν
  | 0, _ => none
  | fuel + 1, node =>
    match into node with
    | none => some node
    | some next => follow into fuel next

variable {into : ν → Option ν}

theorem Walk.atRoot (walk : Walk into node path root) : into root = none := by
  induction walk with
  | final here => exact here
  | onward _ _ ih => exact ih

theorem Ends.atRoot (ends : Ends into node root) : into root = none := ends.elim fun _ walk => walk.atRoot

theorem Ends.self (here : into root = none) : Ends into root root := ⟨_, .final here⟩

theorem Walk.unique (walk : Walk into node path root) (walk' : Walk into node path' root') : path = path' ∧
    root = root' := by
  induction walk generalizing path' with
  | final here =>
    cases walk' with
    | final _ => exact ⟨rfl, rfl⟩
    | onward points _ => rw [here] at points; cases points
  | onward points _ ih =>
    cases walk' with
    | final here => rw [here] at points; cases points
    | onward points' rest' =>
      obtain rfl := Option.some.inj (points.symm.trans points')
      obtain ⟨rfl, rfl⟩ := ih rest'
      exact ⟨rfl, rfl⟩

theorem Ends.unique (ends : Ends into node root) (ends' : Ends into node root') : root = root' := by
  obtain ⟨_, walk⟩ := ends
  obtain ⟨_, walk'⟩ := ends'
  exact (walk.unique walk').2

theorem Walk.tail (walk : Walk into node path root) (mem : other ∈ path) : ∃ path', Walk into other path' root ∧
    path'.length ≤ path.length := by
  induction walk with
  | final here =>
    obtain rfl := List.mem_singleton.mp mem
    exact ⟨_, .final here, Nat.le_refl _⟩
  | onward points rest ih =>
    rcases List.mem_cons.mp mem with rfl | later
    · exact ⟨_, .onward points rest, Nat.le_refl _⟩
    · obtain ⟨path', walk', shorter⟩ := ih later
      exact ⟨path', walk', Nat.le_succ_of_le shorter⟩

theorem Walk.nodup (walk : Walk into node path root) : path.Nodup := by
  induction walk with
  | final here => exact List.nodup_singleton _
  | onward points rest ih =>
    refine List.nodup_cons.mpr ⟨fun again => ?_, ih⟩
    obtain ⟨path', walk', shorter⟩ := rest.tail again
    obtain ⟨rfl, -⟩ := walk'.unique (.onward points rest)
    exact Nat.not_succ_le_self _ shorter

theorem Walk.follow_eq (walk : Walk into node path root) (enough : path.length ≤ fuel) :
    follow into fuel node = some root := by
  induction walk generalizing fuel with
  | final here =>
    obtain ⟨rest, rfl⟩ := Nat.exists_eq_add_of_le' enough
    rw [List.length_singleton,follow,here]
  | onward points _ ih =>
    obtain ⟨rest, rfl⟩ := Nat.exists_eq_add_of_le' enough
    rw [List.length_cons,← Nat.add_assoc,follow,points]
    exact ih (Nat.le_add_left _ _)

theorem ends_of_follow (found : follow into fuel node = some root) : Ends into node root := by
  induction fuel generalizing node with
  | zero => cases found
  | succ fuel ih =>
    rw [follow] at found
    cases points : into node with
    | none =>
      rw [points] at found
      obtain rfl := Option.some.inj found
      exact .self points
    | some next =>
      rw [points] at found
      obtain ⟨path, walk⟩ := ih found
      exact ⟨_, .onward points walk⟩

/-- A walk that has not ended after as many nodes as there are never ends. -/
theorem follow_iff (nodes : List ν) (closed : ∀ node ∈ nodes, ∀ next, into node = some next → next ∈ nodes)
    (mem : node ∈ nodes) :
    follow into nodes.length node = some root ↔ Ends into node root := by
  refine ⟨ends_of_follow, ?_⟩
  rintro ⟨path, walk⟩
  refine walk.follow_eq ?_
  have inside : ∀ other ∈ path, other ∈ nodes := by
    induction walk with
    | final _ =>
      intro other here
      rwa [List.mem_singleton.mp here]
    | onward points _ ih =>
      intro other here
      rcases List.mem_cons.mp here with rfl | later
      · exact mem
      · exact ih (closed _ mem _ points) other later
  exact (List.subperm_of_subset walk.nodup inside).length_le

section Join
variable [DecidableEq ν]

theorem Ends.join (ends : Ends into node root) (target : into into' = none) (source : into merged = none)
    (differ : merged ≠ into') :
    Ends (Function.update into merged (some into')) node (if root = merged then into' else root) := by
  have pointed : Ends (Function.update into merged (some into')) into' into' :=
    .self (by rw [Function.update_of_ne (Ne.symm differ)]; exact target)
  obtain ⟨path, walk⟩ := ends
  induction walk with
  | @final node here =>
    by_cases same : node = merged
    · subst same
      obtain ⟨path, walk⟩ := pointed
      rw [if_pos rfl]
      exact ⟨_, .onward (Function.update_self ..) walk⟩
    · rw [if_neg same]
      exact .self (by rwa [Function.update_of_ne same])
  | @onward node next _ _ points _ ih =>
    obtain ⟨path, walk⟩ := ih
    have other : node ≠ merged := fun same => by rw [same,source] at points; cases points
    exact ⟨_, .onward (by rwa [Function.update_of_ne other]) walk⟩

/-- A root merged into itself: no walk to it ends any more. -/
theorem not_ends_self (ends : Ends into node root) : ¬ Ends (Function.update into root (some root)) node root' := by
  obtain ⟨path, walk⟩ := ends
  have looping : ∀ path, ¬ Walk (Function.update into root (some root)) root path root' := by
    intro path round
    cases round with
    | final here => rw [Function.update_self] at here; cases here
    | onward points rest =>
      rw [Function.update_self] at points
      obtain rfl := Option.some.inj points
      have again := (rest.unique (.onward (Function.update_self ..) rest)).1
      exact Nat.succ_ne_self _ (congrArg List.length again).symm
  induction walk with
  | final here => exact fun ⟨path, round⟩ => looping path round
  | @onward node next root path points rest ih =>
    rintro ⟨path', round⟩
    have other : node ≠ root := fun same => by
      have final := rest.atRoot
      rw [← same,points] at final
      cases final
    cases round with
    | final here =>
      rw [Function.update_of_ne other,points] at here
      cases here
    | onward points' rest' =>
      rw [Function.update_of_ne other] at points'
      obtain rfl := Option.some.inj (points.symm.trans points')
      exact ih looping ⟨_, rest'⟩

end Join

section Closure
variable {α : Type} {r : α → α → Prop}

theorem eqvGen_insert (x y a b : α) : Relation.EqvGen (fun a b => r a b ∨ (a = x ∧ b = y)) a b ↔
    Relation.EqvGen r a b ∨ (Relation.EqvGen r a x ∧ Relation.EqvGen r y b) ∨
    (Relation.EqvGen r a y ∧ Relation.EqvGen r x b) := by
  constructor
  · intro closed
    induction closed with
    | rel a b related =>
      rcases related with old | ⟨rfl, rfl⟩
      · exact Or.inl (.rel _ _ old)
      · exact Or.inr (Or.inl ⟨.refl _, .refl _⟩)
    | refl a => exact Or.inl (.refl _)
    | symm a b _ ih =>
      rcases ih with old | ⟨left, right⟩ | ⟨left, right⟩
      · exact Or.inl (.symm _ _ old)
      · exact Or.inr (Or.inr ⟨.symm _ _ right, .symm _ _ left⟩)
      · exact Or.inr (Or.inl ⟨.symm _ _ right, .symm _ _ left⟩)
    | trans a b c _ _ ih ih' =>
      rcases ih with old | ⟨left, right⟩ | ⟨left, right⟩
      · rcases ih' with old' | ⟨left', right'⟩ | ⟨left', right'⟩
        · exact Or.inl (.trans _ _ _ old old')
        · exact Or.inr (Or.inl ⟨.trans _ _ _ old left', right'⟩)
        · exact Or.inr (Or.inr ⟨.trans _ _ _ old left', right'⟩)
      · rcases ih' with old' | ⟨left', right'⟩ | ⟨left', right'⟩
        · exact Or.inr (Or.inl ⟨left, .trans _ _ _ right old'⟩)
        · exact Or.inr (Or.inl ⟨left, right'⟩)
        · exact Or.inl (.trans _ _ _ left right')
      · rcases ih' with old' | ⟨left', right'⟩ | ⟨left', right'⟩
        · exact Or.inr (Or.inr ⟨left, .trans _ _ _ right old'⟩)
        · exact Or.inl (.trans _ _ _ left right')
        · exact Or.inr (Or.inr ⟨left, right'⟩)
  · have grow : ∀ {a b}, Relation.EqvGen r a b → Relation.EqvGen (fun a b => r a b ∨ (a = x ∧ b = y)) a b :=
      fun old => Relation.EqvGen.mono (fun _ _ => Or.inl) _ _ old
    have added : Relation.EqvGen (fun a b => r a b ∨ (a = x ∧ b = y)) x y := .rel _ _ (Or.inr ⟨rfl, rfl⟩)
    rintro (old | ⟨left, right⟩ | ⟨left, right⟩)
    · exact grow old
    · exact .trans _ _ _ (grow left) (.trans _ _ _ added (grow right))
    · exact .trans _ _ _ (grow left) (.trans _ _ _ (.symm _ _ added) (grow right))

theorem eqvGen_mentioned {mentioned : α → Prop} (both : ∀ a b, r a b → mentioned a ∧ mentioned b)
    (closed : Relation.EqvGen r a b) :
    a = b ∨ mentioned a ∧ mentioned b := by
  induction closed with
  | rel a b related => exact Or.inr (both a b related)
  | refl a => exact Or.inl rfl
  | symm a b _ ih => exact ih.imp Eq.symm And.symm
  | trans a b c _ _ ih ih' =>
    rcases ih with rfl | ⟨left, right⟩
    · exact ih'
    · rcases ih' with rfl | ⟨left', right'⟩
      · exact Or.inr ⟨left, right⟩
      · exact Or.inr ⟨left, right'⟩

end Closure
end MergeForest
