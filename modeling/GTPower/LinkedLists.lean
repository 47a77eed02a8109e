import Mathlib.Data.List.Nodup
import Mathlib.Data.List.Perm.Subperm
import Mathlib.Logic.Function.Basic

/-! Lists threaded through their elements: a head and a successor per element, and for doubly linked lists a predecessor
too. A family of such lists shares the elements; every element is in the list of its owner and in no other. -/
namespace GTPower.Linked

variable {ι κ : Type*}

/-- Following `next` from `head` meets exactly `l`. -/
def IsList (next : ι → Option ι) : Option ι → List ι → Prop
  | head, [] => head = none
  | head, a :: l => head = some a ∧ IsList next (next a) l

/-- Every element of `l` points back to the one before it, the first one to `before`. -/
def BackFrom (prev : ι → Option ι) : Option ι → List ι → Prop
  | _, [] => True
  | before, a :: l => prev a = before ∧ BackFrom prev (some a) l

section Single

variable {next next' prev prev' : ι → Option ι} {head before : Option ι} {l l' : List ι} {a : ι}

theorem IsList.head_eq (list : IsList next head l) : head = l.head? := by
  cases l with
  | nil => exact list
  | cons a l => exact list.1

theorem IsList.unique (list : IsList next head l) (list' : IsList next head l') : l = l' := by
  induction l generalizing head l' with
  | nil =>
    cases l' with
    | nil => rfl
    | cons b l' => cases list.symm.trans list'.1
  | cons a l ih =>
    cases l' with
    | nil => cases list.1.symm.trans list'
    | cons b l' =>
      obtain rfl := Option.some.inj (list.1.symm.trans list'.1)
      rw [ih list.2 list'.2]

/-- What follows an element is determined by the element, so no element comes twice. -/
theorem IsList.nodup (list : IsList next head l) : l.Nodup := by
  induction l generalizing head with
  | nil => exact .nil
  | cons a l ih =>
    refine List.nodup_cons.2 ⟨fun mem => ?_, ih list.2⟩
    obtain ⟨front, back, rfl⟩ := List.append_of_mem mem
    have later : ∀ (front : List ι) (head : Option ι), IsList next head (front ++ a :: back) →
      IsList next (next a) back := by
      intro front
      induction front with
      | nil => exact fun _ list => list.2
      | cons b front ih => exact fun _ list => ih _ list.2
    have same := congrArg List.length ((later front _ list.2).unique list.2)
    simp at same
    omega

theorem IsList.congr (list : IsList next head l) (same : ∀ a ∈ l, next' a = next a) : IsList next' head l := by
  induction l generalizing head with
  | nil => exact list
  | cons a l ih =>
    refine ⟨list.1, ?_⟩
    rw [same a List.mem_cons_self]
    exact ih list.2 fun b mem => same b (List.mem_cons_of_mem a mem)

theorem BackFrom.congr (back : BackFrom prev before l) (same : ∀ a ∈ l, prev' a = prev a) :
    BackFrom prev' before l := by
  induction l generalizing before with
  | nil => trivial
  | cons a l ih =>
    exact ⟨(same a List.mem_cons_self).trans back.1, ih back.2 fun b mem => same b (List.mem_cons_of_mem a mem)⟩

theorem IsList.next_mem (list : IsList next head l) (mem : a ∈ l) {b : ι} (follows : next a = some b) : b ∈ l := by
  induction l generalizing head with
  | nil => cases mem
  | cons c l ih =>
    cases mem with
    | head =>
      cases l with
      | nil => cases list.2.symm.trans follows
      | cons d l =>
        obtain rfl := Option.some.inj (list.2.1.symm.trans follows)
        simp
    | tail _ mem => exact List.mem_cons_of_mem _ (ih list.2 mem)

end Single

section Walk

variable {next : ι → Option ι} {head : Option ι} {l : List ι}

def walk (next : ι → Option ι) : ℕ → Option ι → Option (List ι)
  | _, none => some []
  | 0, some _ => none
  | fuel + 1, some a => (walk next fuel (next a)).map (a :: ·)

theorem IsList.walk {fuel : ℕ} (list : IsList next head l) (enough : l.length ≤ fuel) :
    walk next fuel head = some l := by
  induction l generalizing head fuel with
  | nil => cases list; cases fuel <;> rfl
  | cons a l ih =>
    obtain ⟨rfl, list⟩ := list
    cases fuel with
    | zero => simp at enough
    | succ fuel => simp [Linked.walk,ih list (Nat.le_of_succ_le_succ enough)]

theorem length_le_of_lt {l : List ℕ} {bound : ℕ} (distinct : l.Nodup) (below : ∀ a ∈ l, a < bound) :
    l.length ≤ bound := by
  have sub : l ⊆ List.range bound := fun a mem => List.mem_range.2 (below a mem)
  simpa using (List.subperm_of_subset distinct sub).length_le

end Walk

section Unlink

variable [DecidableEq ι] {next next' prev prev' : ι → Option ι} {head before : Option ι} {l : List ι} {a : ι}

/-- The element before `a`, where `before` stands before the list. -/
def precedes (a : ι) : Option ι → List ι → Option ι
  | before, [] => before
  | before, b :: l => if b = a then before else precedes a (some b) l

theorem precedes_cases (mem : a ∈ l) :
    precedes a before l = before ∧ l.head? = some a ∨ ∃ b ∈ l, precedes a before l = some b ∧ l.head? ≠ some a := by
  induction l generalizing before with
  | nil => cases mem
  | cons b l ih =>
    by_cases first : b = a
    · simp [precedes,first]
    · right
      have later := @ih (some b) (List.mem_of_ne_of_mem (Ne.symm first) mem)
      rcases later with ⟨eq, _⟩ | ⟨c, mem, eq, _⟩
      · exact ⟨b, by simp, by simp [precedes,first,eq], by simpa using first⟩
      · exact ⟨c, List.mem_cons_of_mem b mem, by simp [precedes,first,eq], by simpa using first⟩

theorem BackFrom.prev_eq (back : BackFrom prev before l) (mem : a ∈ l) : prev a = precedes a before l := by
  induction l generalizing before with
  | nil => cases mem
  | cons b l ih =>
    by_cases first : b = a
    · subst first
      simpa [precedes] using back.1
    · simpa [precedes,first] using ih back.2 (List.mem_of_ne_of_mem (Ne.symm first) mem)

theorem IsList.unlink (list : IsList next head l) (mem : a ∈ l) (outside : ∀ b, before = some b → b ∉ l)
    (redirect : ∀ b ∈ l, next' b = if precedes a before l = some b then next a else next b) :
    IsList next' (if head = some a then next a else head) (l.erase a) := by
  induction l generalizing head before with
  | nil => cases mem
  | cons b l ih =>
    obtain ⟨fresh, distinct⟩ := List.nodup_cons.1 list.nodup
    obtain ⟨rfl, rest⟩ := list
    by_cases first : b = a
    · subst first
      simp only [if_true,List.erase_cons_head]
      refine rest.congr fun c inside => ?_
      have apart : before ≠ some c := fun eq => outside c eq (List.mem_cons_of_mem b inside)
      simp [redirect c (List.mem_cons_of_mem b inside),precedes,apart]
    · have mem : a ∈ l := List.mem_of_ne_of_mem (Ne.symm first) mem
      have away : (b == a) = false := by simpa using first
      simp only [Option.some.injEq,first,if_false,List.erase_cons,away,Bool.false_eq_true]
      refine ⟨rfl, ?_⟩
      have redirect' : ∀ c ∈ l, next' c = if precedes a (some b) l = some c then next a else next c :=
        fun c inside => by
        simpa [precedes,first] using redirect c (List.mem_cons_of_mem b inside)
      have shorter := ih rest mem (by rintro c ⟨⟩; exact fresh) redirect'
      have here := redirect b List.mem_cons_self
      simp only [precedes,first,if_false] at here
      rw [here]
      have place := @precedes_cases _ _ (some b) _ _ mem
      rcases place with ⟨eq, starts⟩ | ⟨c, inside, eq, later⟩
      · simpa [eq,rest.head_eq,starts] using shorter
      · have ne : c ≠ b := fun eq => fresh (eq ▸ inside)
        simpa [eq,ne,rest.head_eq,later] using shorter

theorem BackFrom.unlink (list : IsList next head l) (back : BackFrom prev before l) (mem : a ∈ l)
    (redirect : ∀ b ∈ l, prev' b = if next a = some b then prev a else prev b) : BackFrom prev' before (l.erase a) := by
  induction l generalizing head before with
  | nil => cases mem
  | cons b l ih =>
    obtain ⟨fresh, distinct⟩ := List.nodup_cons.1 list.nodup
    obtain ⟨rfl, rest⟩ := list
    obtain ⟨here, back⟩ := back
    by_cases first : b = a
    · subst first
      rw [List.erase_cons_head]
      cases l with
      | nil => trivial
      | cons c l =>
        obtain ⟨follows, rest⟩ := rest
        obtain ⟨_, back⟩ := back
        refine ⟨by simp [redirect c,follows,here], back.congr fun d inside => ?_⟩
        have ne : c ≠ d := fun eq => (List.nodup_cons.1 distinct).1 (eq ▸ inside)
        simp [redirect d,inside,follows,ne]
    · have mem : a ∈ l := List.mem_of_ne_of_mem (Ne.symm first) mem
      have away : (b == a) = false := by simpa using first
      simp only [List.erase_cons,away,Bool.false_eq_true,if_false]
      have ne : next a ≠ some b := fun eq => fresh (rest.next_mem mem eq)
      refine ⟨by simpa [ne,here] using redirect b List.mem_cons_self, ?_⟩
      exact ih rest back mem fun c inside => redirect c (List.mem_cons_of_mem b inside)

end Unlink

section Family

variable {head head' : κ → Option ι} {next next' prev prev' : ι → Option ι} {owner owner' : ι → Option κ} {l : κ →
    List ι} {a : ι}
  {k : κ}

/-- A family of lists: each element is in the list of its owner. -/
structure Chains (head : κ → Option ι) (next : ι → Option ι) (owner : ι → Option κ) (l : κ → List ι) : Prop where
  chain : ∀ k, IsList next (head k) (l k)
  owner : ∀ k a, a ∈ l k ↔ owner a = some k

/-- The lists of the family that are `on` are linked backwards too. -/
def Backs (prev : ι → Option ι) (l : κ → List ι) (on : κ → Prop) : Prop := ∀ k, on k → BackFrom prev none (l k)

theorem Chains.disjoint (chains : Chains head next owner l) {j : κ} (mem : a ∈ l j) (mem' : a ∈ l k) : j = k :=
  Option.some.inj (((chains.owner j a).1 mem).symm.trans ((chains.owner k a).1 mem'))

theorem Chains.head_mem (chains : Chains head next owner l) (first : head k = some a) : a ∈ l k := by
  rw [(chains.chain k).head_eq] at first
  exact List.mem_of_head? first

theorem Chains.count [DecidableEq ι] [DecidableEq κ] (chains : Chains head next owner l) (k : κ) (a : ι) :
    (l k).count a = if owner a = some k then 1 else 0 := by
  rw [List.Nodup.count (chains.chain k).nodup]
  simp [chains.owner]

variable [DecidableEq ι] [DecidableEq κ]

theorem Chains.push (chains : Chains head next owner l) (free : owner a = none)
    (heads : ∀ j, head' j = if j = k then some a else head j) (nexts : ∀ b, next' b = if b = a then head k else next b)
    (owners : ∀ b, owner' b = if b = a then some k else owner b) :
    Chains head' next' owner' (Function.update l k (a :: l k)) := by
  have fresh : ∀ j, a ∉ l j := fun j mem => by simp [(chains.owner j a).1 mem] at free
  have kept : ∀ j, IsList next' (head j) (l j) := fun j => (chains.chain j).congr fun b mem => by
    simp [nexts,show b ≠ a from fun eq => fresh j (eq ▸ mem)]
  constructor
  · intro j
    by_cases same : j = k
    · subst same
      rw [Function.update_self]
      exact ⟨by simp [heads], by simpa [nexts] using kept j⟩
    · simpa [Function.update_of_ne same,heads,same] using kept j
  · intro j b
    by_cases same : j = k <;> by_cases new : b = a
    · simp [same,new,owners]
    · simp [same,new,owners,chains.owner]
    · simp [Function.update_of_ne same,new,owners,fresh,Ne.symm same]
    · simp [Function.update_of_ne same,new,owners,chains.owner]

theorem Backs.push {on : κ → Prop} (backs : Backs prev l on) (chains : Chains head next owner l) (free : owner a = none)
    (live : on k) (prevs : ∀ b, prev' b = if b = a then none else if head k = some b then some a else prev b) :
    Backs prev' (Function.update l k (a :: l k)) on := by
  have fresh : ∀ j, a ∉ l j := fun j mem => by simp [(chains.owner j a).1 mem] at free
  intro j running
  by_cases same : j = k
  · subst same
    rw [Function.update_self]
    refine ⟨by simp [prevs], ?_⟩
    have list := chains.chain j
    have back := backs j live
    have fresh := fresh j
    generalize l j = lj at list back fresh
    cases lj with
    | nil => trivial
    | cons b rest =>
      obtain ⟨first, rest'⟩ := list
      have distinct := (chains.chain j).nodup
      have apart : b ∉ rest := by
        have whole : IsList next (some b) (b :: rest) := ⟨rfl, rest'⟩
        exact (List.nodup_cons.1 whole.nodup).1
      have new : b ≠ a := fun eq => fresh (by simp [eq])
      refine ⟨by simp [prevs,new,first], back.2.congr fun c mem => ?_⟩
      have new' : c ≠ a := fun eq => fresh (by simp [← eq,mem])
      have ne : b ≠ c := fun eq => apart (eq ▸ mem)
      simp [prevs,new',first,ne]
  · rw [Function.update_of_ne same]
    refine (backs j running).congr fun b mem => ?_
    have new : b ≠ a := fun eq => fresh j (eq ▸ mem)
    have away : head k ≠ some b := fun eq => same (chains.disjoint mem (chains.head_mem eq))
    simp [prevs,new,away]

theorem Chains.unlink (chains : Chains head next owner l) (owned : owner a = some k)
    (heads : ∀ j, head' j = if j = k then if head k = some a then next a else head k else head j)
    (nexts : ∀ b, next' b = if precedes a none (l k) = some b then next a else next b)
    (owners : ∀ b, owner' b = if b = a then none else owner b) :
    Chains head' next' owner' (Function.update l k ((l k).erase a)) := by
  have mem : a ∈ l k := (chains.owner k a).2 owned
  constructor
  · intro j
    by_cases same : j = k
    · subst same
      rw [Function.update_self,heads,if_pos rfl]
      exact (chains.chain j).unlink mem (by simp) fun b _ => nexts b
    · rw [Function.update_of_ne same,heads,if_neg same]
      refine (chains.chain j).congr fun b inside => ?_
      have away : precedes a none (l k) ≠ some b := by
        intro eq
        rcases @precedes_cases _ _ none _ _ mem with ⟨none, _⟩ | ⟨c, mem', eq', _⟩
        · cases none.symm.trans eq
        · obtain rfl := Option.some.inj (eq'.symm.trans eq)
          exact same (chains.disjoint inside mem')
      simp [nexts,away]
  · intro j b
    by_cases same : j = k <;> by_cases gone : b = a
    · subst same gone
      simpa [owners] using (chains.chain j).nodup.not_mem_erase
    · simp [same,gone,owners,List.mem_erase_of_ne,chains.owner]
    · simp [Function.update_of_ne same,gone,owners,chains.owner,owned,Ne.symm same]
    · simp [Function.update_of_ne same,gone,owners,chains.owner]

theorem Backs.unlink {on : κ → Prop} (backs : Backs prev l on) (chains : Chains head next owner l)
    (owned : owner a = some k) (prevs : ∀ b, prev' b = if next a = some b then prev a else prev b) :
    Backs prev' (Function.update l k ((l k).erase a)) on := by
  have mem : a ∈ l k := (chains.owner k a).2 owned
  intro j running
  by_cases same : j = k
  · subst same
    rw [Function.update_self]
    exact (backs j running).unlink (chains.chain j) mem fun b _ => prevs b
  · rw [Function.update_of_ne same]
    refine (backs j running).congr fun b inside => ?_
    have away : next a ≠ some b := fun eq => same (chains.disjoint inside ((chains.chain k).next_mem mem eq))
    simp [prevs,away]

theorem Chains.pop (chains : Chains head next owner l) (first : head k = some a)
    (heads : ∀ j, head' j = if j = k then next a else head j)
    (owners : ∀ b, owner' b = if b = a then none else owner b) :
    Chains head' next owner' (Function.update l k (l k).tail) := by
  have list := chains.chain k
  obtain ⟨rest, whole⟩ : ∃ rest, l k = a :: rest := by
    cases here : l k with
    | nil => rw [here] at list; cases first.symm.trans list
    | cons b rest => rw [here] at list; exact ⟨rest, by rw [Option.some.inj (first.symm.trans list.1)]⟩
  rw [whole] at list
  constructor
  · intro j
    by_cases same : j = k
    · subst same
      simpa [whole,heads] using list.2
    · simpa [Function.update_of_ne same,heads,same] using chains.chain j
  · intro j b
    have inside := chains.owner k b
    rw [whole] at inside
    by_cases same : j = k <;> by_cases gone : b = a
    · subst same gone
      simpa [whole,owners] using (List.nodup_cons.1 list.nodup).1
    · simpa [same,whole,gone,owners] using inside
    · have owned : owner a = some k := (chains.owner k a).1 (by simp [whole])
      simp [Function.update_of_ne same,gone,owners,chains.owner,owned,Ne.symm same]
    · simp [Function.update_of_ne same,gone,owners,chains.owner]

omit [DecidableEq ι] in
theorem Chains.clear (chains : Chains head next owner l) (heads : ∀ j, head' j = if j = k then none else head j)
    (owners : ∀ b, owner' b = if owner b = some k then none else owner b) :
    Chains head' next owner' (Function.update l k []) := by
  constructor
  · intro j
    by_cases same : j = k
    · simp [same,heads,IsList]
    · simpa [Function.update_of_ne same,heads,same] using chains.chain j
  · intro j b
    by_cases same : j = k
    · by_cases owned : owner b = some k <;> simp [same,owners,owned]
    · by_cases owned : owner b = some k <;> simp [Function.update_of_ne same,owners,owned,chains.owner,Ne.symm same]

omit [DecidableEq ι] in
theorem Backs.clear {on : κ → Prop} (backs : Backs prev l on) (k : κ) : Backs prev (Function.update l k []) on := by
  intro j running
  by_cases same : j = k
  · simp [same,BackFrom]
  · simpa [Function.update_of_ne same] using backs j running

end Family

end GTPower.Linked
