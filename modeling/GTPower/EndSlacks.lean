import GTPower.WorstSlack
import Mathlib.Algebra.BigOperators.Group.List.Basic
import Mathlib.Algebra.Order.Ring.Rat
import Mathlib.Algebra.Order.Monoid.WithTop
import Mathlib.Data.List.Infix

/-! Worst and total negative slack of the endpoints of a search, kept up to date over edits. The graph side of the state
says which vertices are endpoints and what their slacks are; `⊤` is the slack of an endpoint without a constrained
path. -/
namespace GTPower.EndSlacks

abbrev Slack := WithTop ℚ

attribute [local instance] lawfulBEq_vertex

variable {V A : Type*} [LinearOrder V]

/-- The total of one analysis point and the part of each vertex in it. `existing` notes the error of a vertex added
twice. -/
structure Tns (V : Type*) where
  total : ℚ
  slacks : V → Option ℚ
  existing : Bool

structure Search (V A : Type*) where
  endpoints : List V
  wnsSlack : V → A → Slack
  invalidTns : List V
  tnsExists : Bool
  tns : A → Tns V
  worstSlacks : Option (A → WorstSlack V Slack)

section Source

def setSlack (slacks : V → Option ℚ) (v : V) (slack : Option ℚ) : V → Option ℚ :=
  fun u => if u = v then slack else slacks u

def tnsIncr (t : Tns V) (v : V) (slack : Slack) : Tns V :=
  if slack < 0 then
    { total := t.total + slack.untopD 0
      slacks := setSlack t.slacks v (some (slack.untopD 0))
      existing := t.existing || (t.slacks v).isSome }
  else t

def tnsDecr (t : Tns V) (v : V) : Tns V :=
  match t.slacks v with
  | some slack => if slack < 0 then { t with total := t.total - slack, slacks := setSlack t.slacks v none } else t
  | none => t

def updateTns (t : Tns V) (v : V) (slack : Slack) : Tns V := tnsIncr (tnsDecr t v) v slack

variable [DecidableEq A] (st : Search V A)

def initial : Search V A := ⟨[], fun _ _ => ⊤, [], false, fun _ => ⟨0, fun _ => none, false⟩, none⟩

def setWnsSlack (v : V) (slacks : A → Slack) : Search V A :=
  { st with wnsSlack := fun u => if u = v then slacks else st.wnsSlack u }

/-- Only endpoints are marked, and only while something is kept up to date. -/
def tnsInvalid (v : V) : Search V A :=
  if (st.tnsExists || st.worstSlacks.isSome) ∧
    v ∈ st.endpoints then { st with invalidTns := insertVertex st.invalidTns v } else st

/-- A vertex that is no endpoint any more is left as it was. -/
def updateVertex (v : V) : Search V A :=
  if v ∈ st.endpoints then
    { st with
      tns := fun a => if st.tnsExists then updateTns (st.tns a) v (st.wnsSlack v a) else st.tns a
      worstSlacks := st.worstSlacks.map fun w a => (w a).updateWorstSlack v (st.wnsSlack v a) }
  else st

def updateInvalidTns : Search V A := { st.invalidTns.foldl updateVertex st with invalidTns := [] }

def findTotalNegativeSlacks : Search V A :=
  { st with
    tns := fun a => st.endpoints.foldl (fun t v => tnsIncr t v (st.wnsSlack v a)) ⟨0, fun _ =>
      none, (st.tns a).existing⟩
    tnsExists := true }

def tnsPreamble : Search V A := if st.tnsExists then updateInvalidTns st else findTotalNegativeSlacks st

def worstSlackPreamble : Search V A :=
  match st.worstSlacks with
  | some _ => updateInvalidTns st
  | none => { st with worstSlacks := some fun _ => WorstSlack.new }

def findPoint (w : A → WorstSlack V Slack) (a : A) : A → WorstSlack V Slack := fun b =>
  if b = a then WorstSlack.findWorstSlack (fun v => st.wnsSlack v a) st.endpoints (w a) else w b

def worstSlack (a : A) : Search V A :=
  let st := worstSlackPreamble st
  { st with worstSlacks := st.worstSlacks.map fun w => findPoint st w a }

def worstSlackAnswer (a : A) : Slack × Option V :=
  match (worstSlack st a).worstSlacks with
  | some w => ((w a).worstSlack, (w a).worstVertex)
  | none => (⊤, none)

def deletePaths (v : V) : Search V A :=
  let st :=
    { st with
      tns := fun a => if st.tnsExists ∧ v ∈ st.endpoints then tnsDecr (st.tns a) v else st.tns a
      worstSlacks := st.worstSlacks.map fun w a => (w a).deleteVertexBefore v }
  setWnsSlack st v fun _ => ⊤

def deleteVertexBefore (v : V) : Search V A :=
  let st := deletePaths st v
  { st with invalidTns := eraseVertex st.invalidTns v, endpoints := eraseVertex st.endpoints v }

/-- What happens to a search. A change of the slacks of an endpoint is announced; an edit that makes a vertex an
endpoint or no endpoint may be announced. -/
inductive Event (V A : Type*) where
  | slackChange (v : V) (slacks : A → Slack)
  | gain (v : V) (slacks : A → Slack) (announced : Bool)
  | lose (v : V) (announced : Bool)
  | deletePaths (v : V)
  | deleteVertexBefore (v : V)
  | totalNegativeSlack
  | worstSlack (a : A)

def step : Event V A → Search V A
  | .slackChange v slacks => tnsInvalid (setWnsSlack st v slacks) v
  | .gain v slacks announced =>
    if v ∈ st.endpoints then st
    else
      let st := setWnsSlack { st with endpoints := insertVertex st.endpoints v } v slacks
      if announced then tnsInvalid st v else st
  | .lose v announced =>
    let st := if announced then tnsInvalid st v else st
    { st with endpoints := eraseVertex st.endpoints v }
  | .deletePaths v => EndSlacks.deletePaths st v
  | .deleteVertexBefore v => EndSlacks.deleteVertexBefore st v
  | .totalNegativeSlack => tnsPreamble st
  | .worstSlack a => EndSlacks.worstSlack st a

def run (events : List (Event V A)) : Search V A := events.foldl step initial

end Source

section Runs

variable [DecidableEq A]

/-- Every event meets a condition in the state before it. -/
def Along (meets : Search V A → Event V A → Prop) : Search V A → List (Event V A) → Prop
  | _, [] => True
  | st, event :: rest => meets st event ∧ Along meets (step st event) rest

theorem Along.invariant {meets : Search V A → Event V A → Prop} {inv : Search V A → Prop}
    (keeps : ∀ st event, inv st → meets st event → inv (step st event)) {events : List (Event V A)}
    (start : inv initial) (along : Along meets initial events) : ∀ before, before <+: events →
      inv (run before) ∧ ∀ event, before ++ [event] <+: events → meets (run before) event := by
  have walk : ∀ (events : List (Event V A)) (st : Search V A), inv st → Along meets st events →
    ∀ before, before <+: events →
      inv (before.foldl step st) ∧ ∀ event, before ++ [event] <+: events → meets (before.foldl step st) event := by
    intro events
    induction events with
    | nil =>
      intro st holds _ before isPrefix
      rw [List.prefix_nil.1 isPrefix]
      exact ⟨holds, fun event next => by simp at next⟩
    | cons first rest ih =>
      intro st holds ⟨here, later⟩ before isPrefix
      cases before with
      | nil =>
        refine ⟨holds, fun event next => ?_⟩
        rw [List.nil_append,List.cons_prefix_cons] at next
        exact next.1 ▸ here
      | cons e before =>
        obtain ⟨rfl, tail⟩ := List.cons_prefix_cons.1 isPrefix
        obtain ⟨kept, meets'⟩ := ih (step st e) (keeps st e holds here) later before tail
        refine ⟨kept, fun event next => meets' event ?_⟩
        rw [List.cons_append,List.cons_prefix_cons] at next
        exact next.2
  exact walk events initial start along

end Runs

section Marks

variable {st : Search V A} {v : V} {a : A}

@[simp] theorem tnsInvalid_endpoints : (tnsInvalid st v).endpoints = st.endpoints := by unfold tnsInvalid; split <;> rfl
@[simp] theorem tnsInvalid_wnsSlack : (tnsInvalid st v).wnsSlack = st.wnsSlack := by unfold tnsInvalid; split <;> rfl
@[simp] theorem tnsInvalid_tnsExists : (tnsInvalid st v).tnsExists = st.tnsExists := by unfold tnsInvalid; split <;> rfl
@[simp] theorem tnsInvalid_tns : (tnsInvalid st v).tns = st.tns := by unfold tnsInvalid; split <;> rfl
@[simp] theorem tnsInvalid_worstSlacks : (tnsInvalid st v).worstSlacks = st.worstSlacks := by
  unfold tnsInvalid
  split <;> rfl

theorem mem_tnsInvalid {u : V} : u ∈ (tnsInvalid st v).invalidTns ↔
    u ∈ st.invalidTns ∨ (u = v ∧ (st.tnsExists || st.worstSlacks.isSome) ∧ v ∈ st.endpoints) := by
  unfold tnsInvalid
  split
  · next marks =>
    rw [mem_insertVertex]
    constructor
    · rintro (same | mem)
      · exact .inr ⟨same, marks⟩
      · exact .inl mem
    · rintro (mem | ⟨same, _⟩)
      · exact .inr mem
      · exact .inl same
  · next unmarked =>
    constructor
    · exact .inl
    · rintro (mem | ⟨_, marks⟩)
      · exact mem
      · exact absurd marks unmarked

/-- The marked vertices are settled one after the other, each point on its own. -/
theorem foldl_updateVertex (vertices : List V) (st : Search V A) :
    vertices.foldl updateVertex st =
      { st with
        tns := fun a => if st.tnsExists then
            vertices.foldl (fun t v => if v ∈ st.endpoints then updateTns t v (st.wnsSlack v a) else t) (st.tns a)
          else st.tns a
        worstSlacks := st.worstSlacks.map fun w a =>
          vertices.foldl (fun w v => if v ∈ st.endpoints then w.updateWorstSlack v (st.wnsSlack v a) else w)
            (w a) } := by
  induction vertices generalizing st with
  | nil =>
    cases st
    simp
  | cons v rest ih =>
    rw [List.foldl_cons,ih]
    unfold updateVertex
    by_cases mem : v ∈ st.endpoints
    · simp only [mem,if_true,List.foldl_cons,Option.map_map]
      congr 1
      funext a
      split <;> rfl
    · simp only [mem,if_false,List.foldl_cons]

end Marks

section Worst

variable {st : Search V A} {v : V}

/-- Before marked vertices are settled, a point that was asked nothing gets none of them or all there are. -/
def FlushReady (st : Search V A) : Prop :=
  ∀ w, st.worstSlacks = some w → ∀ a, (w a).Fresh →
    (∀ v ∈ st.invalidTns, v ∈ st.endpoints → st.wnsSlack v a = ⊤) ∨ ∀ v ∈ st.endpoints, st.wnsSlack v a ≠ ⊤ →
      v ∈ st.invalidTns

/-- A vertex that stops being an endpoint is held by no point, a new endpoint without a mark has no slack, and points
that were asked nothing are left alone. -/
def WorstMeets (st : Search V A) : Event V A → Prop
  | .lose v _ => ∀ w, st.worstSlacks = some w → ∀ a, v ∉ (w a).queue ∧ (w a).worstVertex ≠ some v
  | .gain v slacks announced => announced = true ∨ st.worstSlacks = none ∨ v ∈ st.invalidTns ∨ ∀ a, slacks a = ⊤
  | .totalNegativeSlack => st.tnsExists → FlushReady st
  | .worstSlack _ => FlushReady st
  | _ => True

/-- Every point is right about the endpoints that are not marked, or was asked nothing. -/
def WorstInv (st : Search V A) : Prop :=
  ∀ w, st.worstSlacks = some w → ∀ a,
    (w a).Accurate st.endpoints (fun v => st.wnsSlack v a) (· ∈ st.invalidTns) ∨ (w a).Fresh

theorem accurate_settled (endpoints : List V) (slack : V → Slack) (marked : List V) {w : WorstSlack V Slack}
    (accurate : w.Accurate endpoints slack (· ∈ marked)) :
    (marked.foldl (fun w v => if v ∈ endpoints then w.updateWorstSlack v (slack v) else w) w).Accurate endpoints slack
    fun _ => False := by
  induction marked generalizing w with
  | nil => exact accurate.mono fun u mem => by cases mem
  | cons v rest ih =>
    rw [List.foldl_cons]
    apply ih
    split
    · next mem =>
      refine (accurate.updateWorstSlack mem).mono fun u ⟨marked, ne⟩ => ?_
      exact (List.mem_cons.1 marked).resolve_left ne
    · next out =>
      refine accurate.drop (fun queued => out (accurate.held v (.inl queued))) (fun worst =>
        out (accurate.held v (.inr worst)))
        (.inl out) fun u ne => ⟨fun unmarked marked => ?_, rfl, .rfl⟩
      exact unmarked ((List.mem_cons.1 marked).resolve_left ne)

theorem fresh_settled (endpoints : List V) (slack : V → Slack) (marked : List V) {w : WorstSlack V Slack}
    (fresh : w.Fresh) (none : ∀ v ∈ marked, v ∈ endpoints → slack v = ⊤) :
    (marked.foldl (fun w v => if v ∈ endpoints then w.updateWorstSlack v (slack v) else w) w).Fresh := by
  induction marked generalizing w with
  | nil => exact fresh
  | cons v rest ih =>
    rw [List.foldl_cons]
    refine ih ?_ fun u mem => none u (List.mem_cons_of_mem _ mem)
    split
    · next mem =>
      rw [none v List.mem_cons_self mem]
      exact fresh.updateWorstSlack v
    · exact fresh

theorem updateInvalidTns_settled {w : A → WorstSlack V Slack} (inv : WorstInv st) (ready : FlushReady st)
    (held : st.worstSlacks = some w) :
    ∃ w', (updateInvalidTns st).worstSlacks = some w' ∧
      ∀ a, (w' a).Accurate st.endpoints (fun v => st.wnsSlack v a) (fun _ => False) ∨ (w' a).Fresh := by
  refine ⟨_, by rw [updateInvalidTns,foldl_updateVertex,held]; rfl, fun a => ?_⟩
  rcases inv w held a with accurate | fresh
  · exact .inl (accurate_settled st.endpoints (fun v => st.wnsSlack v a) st.invalidTns accurate)
  rcases ready w held a fresh with none | all
  · exact .inr (fresh_settled st.endpoints (fun v => st.wnsSlack v a) st.invalidTns fresh none)
  · exact .inl (accurate_settled st.endpoints (fun v => st.wnsSlack v a) st.invalidTns (fresh.accurate all))

theorem updateInvalidTns_inv (inv : WorstInv st) (ready : FlushReady st) : WorstInv (updateInvalidTns st) := by
  intro w' held' a
  cases held : st.worstSlacks with
  | none =>
    rw [updateInvalidTns,foldl_updateVertex,held] at held'
    cases held'
  | some w =>
    obtain ⟨w'', settled, right⟩ := updateInvalidTns_settled inv ready held
    rw [settled] at held'
    obtain rfl := Option.some.inj held'
    rw [updateInvalidTns,foldl_updateVertex]
    exact (right a).imp_left fun accurate => accurate.mono fun _ out => out.elim

omit [LinearOrder V] in
theorem WorstInv.change {st' : Search V A} (inv : WorstInv st) (points : st'.worstSlacks = st.worstSlacks)
    (sub : ∀ u ∈ st.endpoints, u ∈ st'.endpoints) (marks : ∀ u ∈ st.invalidTns, u ∈ st'.invalidTns)
    (same : st.worstSlacks.isSome → ∀ u, u ∉ st'.invalidTns → st'.wnsSlack u = st.wnsSlack u ∧
      (u ∈ st'.endpoints ↔ u ∈ st.endpoints)) :
    WorstInv st' := by
  intro w held a
  rw [points] at held
  refine (inv w held a).imp_left fun accurate => accurate.change sub fun u unmarked => ?_
  obtain ⟨slack, member⟩ := same (by rw [held]; rfl) u unmarked
  exact ⟨fun marked => unmarked (marks u marked), by rw [slack], member⟩

theorem WorstInv.drop {st' : Search V A} (inv : WorstInv st) (points : st'.worstSlacks = st.worstSlacks)
    (free : ∀ w, st.worstSlacks = some w → ∀ a, v ∉ (w a).queue ∧ (w a).worstVertex ≠ some v)
    (gone : v ∉ st'.endpoints ∨ st'.wnsSlack v = fun _ => ⊤)
    (same : ∀ u, u ≠ v → (u ∉ st'.invalidTns → u ∉ st.invalidTns) ∧ st'.wnsSlack u = st.wnsSlack u ∧
      (u ∈ st'.endpoints ↔ u ∈ st.endpoints)) :
    WorstInv st' := by
  intro w held a
  rw [points] at held
  refine (inv w held a).imp_left fun accurate => accurate.drop (free w held a).1 (free w held a).2 ?_ fun u ne => ?_
  · exact gone.imp_right fun top => congrFun top a
  · obtain ⟨unmarked, slack, member⟩ := same u ne
    exact ⟨unmarked, congrFun slack a, member⟩

omit [LinearOrder V] in
theorem WorstInv.free (inv : WorstInv st) (out : v ∉ st.endpoints) :
    ∀ w, st.worstSlacks = some w → ∀ a, v ∉ (w a).queue ∧ (w a).worstVertex ≠ some v := by
  intro w held a
  rcases inv w held a with accurate | fresh
  · exact ⟨fun queued => out (accurate.held v (.inl queued)), fun worst => out (accurate.held v (.inr worst))⟩
  · simp [fresh.1,fresh.2.1]

theorem deletePaths_inv (inv : WorstInv st) (v : V) : WorstInv (deletePaths st v) ∧
    ∀ w, (deletePaths st v).worstSlacks = some w → ∀ a, v ∉ (w a).queue ∧ (w a).worstVertex ≠ some v := by
  have free : ∀ w, (deletePaths st v).worstSlacks = some w → ∀ a, v ∉ (w a).queue ∧ (w a).worstVertex ≠ some v := by
    intro w held a
    cases before : st.worstSlacks with
    | none =>
      simp only [deletePaths,setWnsSlack,before,Option.map_none] at held
      cases held
    | some w₀ =>
      simp only [deletePaths,setWnsSlack,before,Option.map_some,Option.some.injEq] at held
      rw [← held]
      exact WorstSlack.deleteVertexBefore_holds
  refine ⟨fun w held a => ?_, free⟩
  cases before : st.worstSlacks with
  | none =>
    simp only [deletePaths,setWnsSlack,before,Option.map_none] at held
    cases held
  | some w₀ =>
    have holds := free w held a
    simp only [deletePaths,setWnsSlack,before,Option.map_some,Option.some.injEq] at held
    rw [← held] at holds ⊢
    rcases inv w₀ before a with accurate | fresh
    · left
      have deleted : ((w₀ a).deleteVertexBefore v).Accurate st.endpoints (fun u => st.wnsSlack u a) (fun u =>
        u ∈ st.invalidTns ∨ u = v) :=
        accurate.deleteVertexBefore
      refine deleted.drop holds.1 holds.2 (.inr ?_) fun u ne => ⟨fun unmarked marked => ?_, ?_, .rfl⟩
      · simp [deletePaths,setWnsSlack]
      · exact unmarked (marked.resolve_right ne)
      · simp [deletePaths,setWnsSlack,ne]
    · right
      obtain ⟨worst, queue, threshold⟩ := fresh
      simp [WorstSlack.deleteVertexBefore,WorstSlack.Fresh,worst,queue,threshold,eraseVertex]

variable [DecidableEq A]

omit [DecidableEq A] in
theorem worstSlackPreamble_ready (inv : WorstInv st) (ready : FlushReady st) :
    (worstSlackPreamble st).endpoints = st.endpoints ∧ (worstSlackPreamble st).wnsSlack = st.wnsSlack ∧
      (worstSlackPreamble st).invalidTns ⊆ st.invalidTns ∧
      ∃ w, (worstSlackPreamble st).worstSlacks = some w ∧
        ∀ a, (w a).Accurate st.endpoints (fun v => st.wnsSlack v a) (fun _ => False) ∨ (w a).Fresh := by
  unfold worstSlackPreamble
  cases held : st.worstSlacks with
  | none => exact ⟨rfl, rfl, fun _ mem => mem, _, rfl, fun a => .inr ⟨rfl, rfl, rfl⟩⟩
  | some w =>
    obtain ⟨w', settled, right⟩ := updateInvalidTns_settled inv ready held
    refine ⟨?_, ?_, ?_, w', settled, right⟩
    · rw [updateInvalidTns,foldl_updateVertex]
    · rw [updateInvalidTns,foldl_updateVertex]
    · exact fun _ mem => by cases mem

theorem WorstInv.worstSlack (inv : WorstInv st) (ready : FlushReady st) (a : A) :
    WorstInv (worstSlack st a) ∧
    WorstSlack.IsWorst st.endpoints (fun v => st.wnsSlack v a) (worstSlackAnswer st a) := by
  obtain ⟨endpoints, slacks, _, w, held, right⟩ := worstSlackPreamble_ready inv ready
  have found := WorstSlack.findWorstSlack_spec (right a)
  constructor
  · intro w' held' b
    simp only [EndSlacks.worstSlack,held,Option.map_some,Option.some.injEq] at held'
    rw [← held']
    simp only [EndSlacks.worstSlack,findPoint,endpoints,slacks]
    split
    · next same =>
      subst same
      exact .inl (found.1.mono fun _ out => out.elim)
    · exact (right b).imp_left fun accurate => accurate.mono fun _ out => out.elim
  · simp only [worstSlackAnswer,EndSlacks.worstSlack,held,Option.map_some,findPoint,if_true,endpoints,slacks]
    exact found.2

theorem WorstInv.step (event : Event V A) (inv : WorstInv st) (meets : WorstMeets st event) :
    WorstInv (step st event) := by
  cases event with
  | slackChange v slacks =>
    by_cases mem : v ∈ st.endpoints
    · have marks : ∀ u ∈ st.invalidTns, u ∈ (tnsInvalid (setWnsSlack st v slacks) v).invalidTns :=
        fun u marked => mem_tnsInvalid.2 (.inl marked)
      refine inv.change (by simp [EndSlacks.step,setWnsSlack]) (by simp [EndSlacks.step,setWnsSlack]) marks fun points u
        unmarked => ?_
      have ne : u ≠ v := by
        rintro rfl
        exact unmarked (mem_tnsInvalid.2 (.inr ⟨rfl, by simp [setWnsSlack,points], mem⟩))
      simp [EndSlacks.step,setWnsSlack,ne]
    · refine inv.drop (by simp [EndSlacks.step,setWnsSlack]) (inv.free mem)
        (.inl (by simpa [EndSlacks.step,setWnsSlack])) fun u ne => ?_
      refine ⟨fun unmarked marked => unmarked (mem_tnsInvalid.2 (.inl marked)), ?_, ?_⟩ <;> simp [EndSlacks.step,
        setWnsSlack,ne]
  | gain v slacks announced =>
    simp only [EndSlacks.step]
    split
    · exact inv
    next out =>
    have same : ∀ u, u ≠ v → (if u = v then slacks else st.wnsSlack u) = st.wnsSlack u ∧
        (u ∈ insertVertex st.endpoints v ↔ u ∈ st.endpoints) := by
      intro u ne
      simp [ne]
    cases announced with
    | true =>
      simp only [if_true]
      refine inv.change (by simp [setWnsSlack]) (by simp +contextual [setWnsSlack]) (fun u marked =>
        mem_tnsInvalid.2 (.inl marked))
        fun points u unmarked => ?_
      have ne : u ≠ v := by
        rintro rfl
        exact unmarked (mem_tnsInvalid.2 (.inr ⟨rfl, by simp [setWnsSlack,points], by simp [setWnsSlack]⟩))
      simpa [setWnsSlack] using same u ne
    | false =>
      simp only [Bool.false_eq_true,if_false]
      rcases meets with announced | points | marked | top
      · cases announced
      · intro w held
        simp only [setWnsSlack,points] at held
        cases held
      · refine inv.change rfl (by simp +contextual [setWnsSlack]) (fun _ marked => marked) fun _ u unmarked => ?_
        have ne : u ≠ v := by
          rintro rfl
          exact unmarked marked
        simpa [setWnsSlack] using same u ne
      · have free := inv.free out
        refine inv.drop rfl free (.inr ?_) fun u ne => ⟨fun unmarked => unmarked, same u ne⟩
        funext a
        simpa [setWnsSlack] using top a
  | lose v announced =>
    simp only [EndSlacks.step]
    have marks : ∀ u, u ∉ (if announced then tnsInvalid st v else st).invalidTns → u ∉ st.invalidTns := by
      intro u unmarked marked
      cases announced with
      | true => exact unmarked (mem_tnsInvalid.2 (.inl marked))
      | false => exact unmarked marked
    have kept : (if announced then tnsInvalid st v else st).worstSlacks = st.worstSlacks ∧
        (if announced then tnsInvalid st v else st).wnsSlack = st.wnsSlack ∧
        (if announced then tnsInvalid st v else st).endpoints = st.endpoints := by cases announced <;> simp
    refine inv.drop kept.1 meets (.inl (by simp [kept.2.2])) fun u ne => ⟨marks u, congrFun kept.2.1 u, ?_⟩
    simp [kept.2.2,ne]
  | deletePaths v => exact (deletePaths_inv inv v).1
  | deleteVertexBefore v =>
    obtain ⟨kept, free⟩ := deletePaths_inv inv v
    refine kept.drop rfl free (.inl ?_) fun u ne => ⟨fun unmarked marked => ?_, rfl, ?_⟩
    · simp [EndSlacks.step,EndSlacks.deleteVertexBefore]
    · exact unmarked (mem_eraseVertex.2 ⟨marked, ne⟩)
    · simp [EndSlacks.step,EndSlacks.deleteVertexBefore,ne]
  | totalNegativeSlack =>
    simp only [EndSlacks.step,tnsPreamble]
    split
    · next exists' => exact updateInvalidTns_inv inv (meets exists')
    · exact inv
  | worstSlack a => exact (inv.worstSlack meets a).1

/-- Along a run that meets the conditions every query returns the worst slack of the endpoints and where it is. -/
theorem worstSlack_exact (events : List (Event V A)) (along : Along WorstMeets initial events)
    (before : List (Event V A)) (a : A) (query : before ++ [.worstSlack a] <+: events) :
    WorstSlack.IsWorst (run before).endpoints (fun v => (run before).wnsSlack v a)
    (worstSlackAnswer (run before) a) := by
  have start : WorstInv (initial : Search V A) := fun w held => by cases held
  obtain ⟨inv, meets⟩ := along.invariant (fun _ event inv => WorstInv.step event inv) start before
    ((List.prefix_append before _).trans query)
  exact (inv.worstSlack (meets (.worstSlack a) query) a).2

section Examples

def twoEnds : List (Event Nat Bool) :=
  [.gain 0 (fun _ => ((-1 : ℚ) : Slack)) true, .gain 1 (fun _ => ((-5 : ℚ) : Slack)) true]

/-- Both points are asked before the worse endpoint gets better. -/
def askedBefore : List (Event Nat Bool) :=
  twoEnds ++ [.worstSlack false, .worstSlack true, .slackChange 1 fun _ => ((3 : ℚ) : Slack)]

theorem worstSlack_exact_twoEnds :
    WorstSlack.IsWorst [0, 1] (fun v => (run askedBefore).wnsSlack v true) (worstSlackAnswer (run askedBefore) true) ∧
      worstSlackAnswer (run askedBefore) true = (((-1 : ℚ) : Slack), some 0) := by
  refine ⟨worstSlack_exact (askedBefore ++ [.worstSlack true]) ?_ askedBefore true (List.prefix_refl _), by
    decide +kernel⟩
  refine ⟨.inl rfl, .inl rfl, ?_, ?_, trivial, ?_, trivial⟩
  · intro w held
    cases held
  · intro w held a _
    exact .inl fun v marked => by cases marked
  · intro w held a fresh
    cases held
    cases a with
    | false => exact absurd fresh.2.1 (by decide +kernel)
    | true => exact absurd fresh.2.1 (by decide +kernel)

/-- A point that was never asked takes the only marked endpoint for all of them; and an endpoint that is none any more
stays the worst. -/
theorem worstSlack_stale :
    let notAsked := twoEnds ++ [.worstSlack false, .slackChange 0 fun _ => ((-2 : ℚ) : Slack)]
    let lost := twoEnds ++ [.worstSlack false, .lose 1 true]
    worstSlackAnswer (run notAsked) true = (((-2 : ℚ) : Slack), some 0) ∧
      ¬ WorstSlack.IsWorst (run notAsked).endpoints (fun v => (run notAsked).wnsSlack v true)
        (worstSlackAnswer (run notAsked) true) ∧
      worstSlackAnswer (run lost) false = (((-5 : ℚ) : Slack), some 1) ∧
      ¬ WorstSlack.IsWorst (run lost).endpoints (fun v => (run lost).wnsSlack v false)
        (worstSlackAnswer (run lost) false) := by
  refine ⟨by decide +kernel, fun worst => ?_, by decide +kernel, fun worst => ?_⟩
  · exact absurd (worst.least 1 (by decide +kernel)) (by decide +kernel)
  · exact absurd (worst.attained 1 (by decide +kernel)).1 (by decide +kernel)

end Examples
end Worst
end GTPower.EndSlacks
