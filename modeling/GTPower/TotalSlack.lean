import GTPower.EndSlacks
import Mathlib.Algebra.BigOperators.Group.Finset.Basic
import Mathlib.Data.Rat.Lemmas
import Mathlib.Tactic.Linarith
import Mathlib.Tactic.Ring

/-! The total negative slack of an analysis point is the sum of the negative slacks of its endpoints, as long as no
vertex stops being an endpoint with a part in the total. -/
namespace GTPower.EndSlacks

attribute [local instance] lawfulBEq_vertex

variable {V A : Type*} [LinearOrder V]

def negativeSlack (slack : Slack) : Option ℚ := if slack < 0 then some (slack.untopD 0) else none

def negativeSum (endpoints : List V) (wnsSlack : V → Slack) : ℚ :=
  (endpoints.map fun v => (negativeSlack (wnsSlack v)).getD 0).sum

/-- The total is the sum of the parts of the endpoints, and the parts of the endpoints that did not change are their
slacks. -/
structure TnsAccurate (endpoints : List V) (wnsSlack : V → Slack) (changed : V → Prop) (t : Tns V) : Prop where
  existing : t.existing = false
  below : ∀ v slack, t.slacks v = some slack → slack < 0
  outside : ∀ v, v ∉ endpoints → t.slacks v = none
  parts : ∀ v ∈ endpoints, ¬ changed v → t.slacks v = negativeSlack (wnsSlack v)
  total : t.total = (endpoints.map fun v => (t.slacks v).getD 0).sum

section Points

variable {endpoints : List V} {wnsSlack : V → Slack} {changed : V → Prop} {t : Tns V} {v : V}

theorem tnsIncr_eq (t : Tns V) (v : V) (slack : Slack) (free : t.slacks v = none) :
    tnsIncr t v slack =
      ⟨t.total + (negativeSlack slack).getD 0, setSlack t.slacks v (negativeSlack slack), t.existing⟩ := by
  unfold tnsIncr negativeSlack
  split
  · simp [free]
  · have same : setSlack t.slacks v none = t.slacks := by
      funext u
      by_cases here : u = v <;> simp [setSlack,here,free]
    simp [same]

theorem tnsDecr_eq (below : ∀ v slack, t.slacks v = some slack → slack < 0) :
    tnsDecr t v = ⟨t.total - (t.slacks v).getD 0, setSlack t.slacks v none, t.existing⟩ := by
  unfold tnsDecr
  cases part : t.slacks v with
  | none =>
    have same : setSlack t.slacks v none = t.slacks := by
      funext u
      by_cases here : u = v <;> simp [setSlack,here,part]
    simp [same]
  | some slack => simp [below v slack part]

theorem negativeSlack_below {slack : Slack} {part : ℚ} (found : negativeSlack slack = some part) : part < 0 := by
  unfold negativeSlack at found
  split at found
  · next negative =>
    cases found
    cases slack using WithTop.recTopCoe with
    | top => exact absurd negative (by simp)
    | coe q => exact_mod_cast negative
  · cases found

theorem sum_setSlack (slacks : V → Option ℚ) (part : Option ℚ) (distinct : endpoints.Nodup) (mem : v ∈ endpoints) :
    (endpoints.map fun u => (setSlack slacks v part u).getD 0).sum =
      (endpoints.map fun u => (slacks u).getD 0).sum - (slacks v).getD 0 + part.getD 0 := by
  induction endpoints with
  | nil => cases mem
  | cons u rest ih =>
    obtain ⟨new, tail⟩ := List.nodup_cons.1 distinct
    rcases List.mem_cons.1 mem with rfl | inRest
    · have same : rest.map (fun u => (setSlack slacks v part u).getD 0) = rest.map fun u => (slacks u).getD 0 := by
        refine List.map_congr_left fun u inRest => ?_
        have ne : u ≠ v := fun same => new (same ▸ inRest)
        simp [setSlack,ne]
      rw [List.map_cons,List.map_cons,List.sum_cons,List.sum_cons,same]
      simp only [setSlack,if_true]
      ring
    · have ne : u ≠ v := fun same => new (same ▸ inRest)
      rw [List.map_cons,List.map_cons,List.sum_cons,List.sum_cons,ih tail inRest]
      simp only [setSlack,ne,if_false]
      ring

theorem sum_of_outside (slacks : V → Option ℚ) (part : Option ℚ) (out : v ∉ endpoints) :
    (endpoints.map fun u => (setSlack slacks v part u).getD 0).sum =
    (endpoints.map fun u => (slacks u).getD 0).sum := by
  refine congrArg List.sum (List.map_congr_left fun u mem => ?_)
  have ne : u ≠ v := fun same => out (same ▸ mem)
  simp [setSlack,ne]

omit [LinearOrder V] in
theorem TnsAccurate.mono {changed' : V → Prop} (accurate : TnsAccurate endpoints wnsSlack changed t)
    (sub : ∀ u, changed u → changed' u) :
    TnsAccurate endpoints wnsSlack changed' t :=
  ⟨accurate.existing, accurate.below, accurate.outside, fun u mem same => accurate.parts u mem fun was =>
    same (sub u was), accurate.total⟩

/-- An update settles its vertex; the part it adds is never there yet. -/
theorem TnsAccurate.updateTns (accurate : TnsAccurate endpoints wnsSlack changed t) (distinct : endpoints.Nodup)
    (mem : v ∈ endpoints) :
    TnsAccurate endpoints wnsSlack (fun u => changed u ∧ u ≠ v) (updateTns t v (wnsSlack v)) := by
  have result : EndSlacks.updateTns t v (wnsSlack v) =
      ⟨t.total - (t.slacks v).getD 0 + (negativeSlack (wnsSlack v)).getD 0,
        setSlack t.slacks v (negativeSlack (wnsSlack v)), t.existing⟩ := by
    rw [EndSlacks.updateTns,tnsDecr_eq accurate.below,tnsIncr_eq _ _ _ (by simp [setSlack])]
    congr 1
    funext u
    by_cases here : u = v <;> simp [setSlack,here]
  rw [result]
  refine ⟨accurate.existing, ?_, ?_, ?_, ?_⟩
  · intro u slack found
    by_cases here : u = v
    · simp only [setSlack,here,if_true] at found
      exact negativeSlack_below found
    · simp only [setSlack,here,if_false] at found
      exact accurate.below u slack found
  · intro u out
    have ne : u ≠ v := fun same => out (same ▸ mem)
    simpa [setSlack,ne] using accurate.outside u out
  · intro u memU settled
    by_cases here : u = v
    · simp [setSlack,here]
    · simpa [setSlack,here] using accurate.parts u memU fun was => settled ⟨was, here⟩
  · dsimp only
    rw [sum_setSlack t.slacks _ distinct mem,← accurate.total]

theorem TnsAccurate.tnsDecr (accurate : TnsAccurate endpoints wnsSlack changed t) (distinct : endpoints.Nodup)
    (mem : v ∈ endpoints) :
    TnsAccurate endpoints wnsSlack (fun u => changed u ∨ u = v) (tnsDecr t v) ∧ (tnsDecr t v).slacks v = none := by
  rw [tnsDecr_eq accurate.below]
  refine ⟨⟨accurate.existing, ?_, ?_, ?_, ?_⟩, by simp [setSlack]⟩
  · intro u slack found
    by_cases here : u = v
    · simp [setSlack,here] at found
    · simp only [setSlack,here,if_false] at found
      exact accurate.below u slack found
  · intro u out
    have ne : u ≠ v := fun same => out (same ▸ mem)
    simpa [setSlack,ne] using accurate.outside u out
  · intro u memU settled
    rw [not_or] at settled
    simpa [setSlack,settled.2] using accurate.parts u memU settled.1
  · dsimp only
    rw [sum_setSlack t.slacks none distinct mem,← accurate.total]
    simp

omit [LinearOrder V] in
/-- A vertex without a part may become an endpoint, stop being one or change its slack if it is marked or stays without
a part. -/
theorem TnsAccurate.change {endpoints' : List V} {wnsSlack' : V → Slack} {changed' : V → Prop}
    (accurate : TnsAccurate endpoints wnsSlack changed t) (sum : (endpoints'.map fun u => (t.slacks u).getD 0).sum =
      (endpoints.map fun u => (t.slacks u).getD 0).sum)
    (sub : ∀ u, u ∉ endpoints' → t.slacks u = none)
    (same : ∀ u ∈ endpoints', ¬ changed' u → t.slacks u = negativeSlack (wnsSlack' u)) :
    TnsAccurate endpoints' wnsSlack' changed' t :=
  ⟨accurate.existing, accurate.below, sub, same, accurate.total.trans sum.symm⟩

omit [LinearOrder V] in
theorem TnsAccurate.settled (accurate : TnsAccurate endpoints wnsSlack (fun _ => False) t) :
    t.total = negativeSum endpoints wnsSlack := by
  rw [accurate.total,negativeSum]
  exact congrArg List.sum (List.map_congr_left fun v mem => by rw [accurate.parts v mem not_false])

theorem foldl_tnsIncr (distinct : endpoints.Nodup) :
    TnsAccurate endpoints wnsSlack (fun _ => False) (endpoints.foldl (fun t v => tnsIncr t v (wnsSlack v)) ⟨0, fun _ =>
    none, false⟩) := by
  have walk : ∀ (rest done : List V) (t : Tns V), (done ++ rest).Nodup → TnsAccurate done wnsSlack (fun _ => False) t →
      TnsAccurate (done ++ rest) wnsSlack (fun _ => False) (rest.foldl (fun t v => tnsIncr t v (wnsSlack v)) t) := by
    intro rest
    induction rest with
    | nil =>
      intro done t _ accurate
      simpa using accurate
    | cons v rest ih =>
      intro done t distinct accurate
      have new : v ∉ done := fun mem => (List.nodup_append.1 distinct).2.2 v mem v List.mem_cons_self rfl
      have free := accurate.outside v new
      have added : TnsAccurate (done ++ [v]) wnsSlack (fun _ => False) (tnsIncr t v (wnsSlack v)) := by
        rw [tnsIncr_eq t v _ free]
        refine ⟨accurate.existing, ?_, ?_, ?_, ?_⟩
        · intro u slack found
          by_cases here : u = v
          · simp only [setSlack,here,if_true] at found
            exact negativeSlack_below found
          · simp only [setSlack,here,if_false] at found
            exact accurate.below u slack found
        · intro u out
          simp only [List.mem_append,List.mem_singleton,not_or] at out
          simpa [setSlack,out.2] using accurate.outside u out.1
        · intro u mem _
          by_cases here : u = v
          · simp [setSlack,here]
          · have inDone : u ∈ done := (List.mem_append.1 mem).resolve_right fun last => here (List.mem_singleton.1 last)
            simpa [setSlack,here] using accurate.parts u inDone not_false
        · dsimp only
          rw [List.map_append,List.sum_append,sum_of_outside t.slacks _ new,← accurate.total]
          simp [setSlack]
      have walked := ih (done ++ [v]) (tnsIncr t v (wnsSlack v)) (by simpa using distinct) added
      simpa using walked
  have walked := walk endpoints [] ⟨0, fun _ => none, false⟩ (by simpa using distinct)
    ⟨rfl, fun _ _ found => (by cases found), fun _ _ => rfl, fun _ mem => (by cases mem), rfl⟩
  simpa using walked

theorem sum_insertVertex (part : V → ℚ) (out : v ∉ endpoints) (none : part v = 0) :
    ((insertVertex endpoints v).map part).sum = (endpoints.map part).sum := by
  rw [insertVertex,if_neg out,((List.perm_orderedInsert (· ≤ ·) v endpoints).map part).sum_eq]
  simp [none]

theorem sum_eraseVertex (part : V → ℚ) (none : part v = 0) :
    ((eraseVertex endpoints v).map part).sum = (endpoints.map part).sum := by
  induction endpoints with
  | nil => rfl
  | cons u rest ih =>
    by_cases here : u = v
    · simpa [eraseVertex,here,none] using ih
    · simpa [eraseVertex,here] using ih

/-- A vertex without a part may become an endpoint if it is marked or has no negative slack. -/
theorem TnsAccurate.insert {wnsSlack' : V → Slack} {changed' : V → Prop}
    (accurate : TnsAccurate endpoints wnsSlack changed t) (out : v ∉ endpoints)
    (here : ¬ changed' v → negativeSlack (wnsSlack' v) = none)
    (same : ∀ u, u ≠ v → (¬ changed' u → ¬ changed u) ∧ wnsSlack' u = wnsSlack u) :
    TnsAccurate (insertVertex endpoints v) wnsSlack' changed' t := by
  have none := accurate.outside v out
  refine accurate.change (sum_insertVertex _ out (by simp [none])) (fun u outside => ?_) fun u mem unchanged => ?_
  · simp only [mem_insertVertex,not_or] at outside
    exact accurate.outside u outside.2
  · by_cases isV : u = v
    · rw [isV] at unchanged ⊢
      rw [none,here unchanged]
    · rw [(same u isV).2]
      exact accurate.parts u ((mem_insertVertex.1 mem).resolve_left isV) ((same u isV).1 unchanged)

theorem TnsAccurate.erase {changed' : V → Prop} (accurate : TnsAccurate endpoints wnsSlack changed t)
    (none : t.slacks v = none)
    (same : ∀ u, u ≠ v → ¬ changed' u → ¬ changed u) : TnsAccurate (eraseVertex endpoints v) wnsSlack changed' t := by
  refine accurate.change (sum_eraseVertex _ (by simp [none])) (fun u outside => ?_) fun u mem unchanged => ?_
  · by_cases isV : u = v
    · exact isV ▸ none
    · exact accurate.outside u fun mem => outside (mem_eraseVertex.2 ⟨mem, isV⟩)
  · obtain ⟨mem, ne⟩ := mem_eraseVertex.1 mem
    exact accurate.parts u mem (same u ne unchanged)

end Points

section Runs

variable {st : Search V A} {v : V}

/-- A vertex that stops being an endpoint has no part in a total, and a new endpoint without a mark has no negative
slack. -/
def TnsMeets (st : Search V A) : Event V A → Prop
  | .lose v _ => st.tnsExists → ∀ a, (st.tns a).slacks v = none
  | .gain v slacks announced => announced = true ∨ st.tnsExists = false ∨ v ∈ st.invalidTns ∨ ∀ a, 0 ≤ slacks a
  | _ => True

structure TnsInv (st : Search V A) : Prop where
  distinct : st.endpoints.Nodup
  unused : st.tnsExists = false → ∀ a, st.tns a = ⟨0, fun _ => none, false⟩
  points : st.tnsExists → ∀ a, TnsAccurate st.endpoints (fun v => st.wnsSlack v a) (· ∈ st.invalidTns) (st.tns a)

omit [LinearOrder V] in
theorem TnsInv.part_none (inv : TnsInv st) (a : A) (out : v ∉ st.endpoints) : (st.tns a).slacks v = none := by
  cases exists' : st.tnsExists with
  | false => rw [inv.unused exists' a]
  | true => exact (inv.points exists' a).outside v out

theorem TnsInv.settled (inv : TnsInv st) (exists' : st.tnsExists) (a : A) :
    TnsAccurate st.endpoints (fun v => st.wnsSlack v a) (fun _ => False) ((updateInvalidTns st).tns a) := by
  have settle : ∀ (marked : List V) (t : Tns V), TnsAccurate st.endpoints (fun v => st.wnsSlack v a) (· ∈ marked) t →
      TnsAccurate st.endpoints (fun v => st.wnsSlack v a) (fun _ => False)
        (marked.foldl (fun t v => if v ∈ st.endpoints then updateTns t v (st.wnsSlack v a) else t) t) := by
    intro marked
    induction marked with
    | nil => exact fun t accurate => accurate.mono fun u mem => by cases mem
    | cons v rest ih =>
      intro t accurate
      rw [List.foldl_cons]
      refine ih _ ?_
      split
      · next mem =>
        refine (accurate.updateTns inv.distinct mem).mono fun u ⟨marked, ne⟩ => ?_
        exact (List.mem_cons.1 marked).resolve_left ne
      · next out =>
        refine accurate.change rfl accurate.outside fun u mem unmarked => accurate.parts u mem fun marked => ?_
        exact unmarked ((List.mem_cons.1 marked).resolve_left fun same => out (same ▸ mem))
  rw [updateInvalidTns,foldl_updateVertex]
  simp only [exists',if_true]
  exact settle st.invalidTns (st.tns a) (inv.points exists' a)

theorem TnsInv.updateInvalidTns (inv : TnsInv st) : TnsInv (updateInvalidTns st) := by
  have frame : (EndSlacks.updateInvalidTns st).endpoints = st.endpoints ∧
    (EndSlacks.updateInvalidTns st).wnsSlack = st.wnsSlack ∧
      (EndSlacks.updateInvalidTns st).tnsExists = st.tnsExists := by
    rw [EndSlacks.updateInvalidTns,foldl_updateVertex]
    exact ⟨rfl, rfl, rfl⟩
  refine ⟨frame.1 ▸ inv.distinct, fun unused a => ?_, fun exists' a => ?_⟩
  · rw [frame.2.2] at unused
    rw [EndSlacks.updateInvalidTns,foldl_updateVertex]
    simpa [unused] using inv.unused unused a
  · rw [frame.2.2] at exists'
    rw [frame.1,frame.2.1]
    exact (inv.settled exists' a).mono fun _ out => out.elim

theorem TnsInv.tnsPreamble (inv : TnsInv st) : TnsInv (tnsPreamble st) ∧
    ∀ a, ((tnsPreamble st).tns a).total = negativeSum st.endpoints fun v => st.wnsSlack v a := by
  unfold EndSlacks.tnsPreamble
  split
  · next exists' => exact ⟨inv.updateInvalidTns, fun a => (inv.settled exists' a).settled⟩
  · next unused =>
    have fresh : ∀ a, TnsAccurate st.endpoints (fun v => st.wnsSlack v a) (fun _ => False)
      ((findTotalNegativeSlacks st).tns a) := by
      intro a
      simp only [findTotalNegativeSlacks,inv.unused (by simpa using unused) a]
      exact foldl_tnsIncr inv.distinct
    refine ⟨⟨inv.distinct, fun unused => (by cases unused), fun _ a => ?_⟩, fun a => (fresh a).settled⟩
    exact (fresh a).mono fun _ out => out.elim

theorem TnsInv.deletePaths (inv : TnsInv st) (v : V) : TnsInv (deletePaths st v) ∧
    ∀ a, ((deletePaths st v).tns a).slacks v = none := by
  have parts : ∀ a, ((EndSlacks.deletePaths st v).tns a).slacks v = none := by
    intro a
    simp only [EndSlacks.deletePaths,setWnsSlack]
    split
    · next counted => exact ((inv.points counted.1 a).tnsDecr inv.distinct counted.2).2
    · next uncounted =>
      cases exists' : st.tnsExists with
      | false => rw [inv.unused exists' a]
      | true => exact inv.part_none a fun mem => uncounted ⟨exists', mem⟩
  refine ⟨⟨inv.distinct, fun unused a => ?_, fun exists' a => ?_⟩, parts⟩
  · have unused : st.tnsExists = false := unused
    simpa [EndSlacks.deletePaths,setWnsSlack,unused] using inv.unused unused a
  · have exists' : st.tnsExists := exists'
    have here := parts a
    have top : negativeSlack ⊤ = none := by simp [negativeSlack]
    by_cases mem : v ∈ st.endpoints
    · obtain ⟨decr, none⟩ := (inv.points exists' a).tnsDecr inv.distinct mem
      simp only [EndSlacks.deletePaths,setWnsSlack,exists',mem,and_self,if_true] at here ⊢
      refine decr.change rfl decr.outside fun u memU unmarked => ?_
      by_cases isV : u = v
      · rw [if_pos isV,isV,none,top]
      · rw [if_neg isV]
        exact decr.parts u memU fun marked => unmarked (marked.resolve_right isV)
    · simp only [EndSlacks.deletePaths,setWnsSlack,mem,and_false,if_false]
      refine (inv.points exists' a).change rfl (inv.points exists' a).outside fun u memU unmarked => ?_
      have ne : u ≠ v := fun same => mem (same ▸ memU)
      rw [if_neg ne]
      exact (inv.points exists' a).parts u memU unmarked

variable [DecidableEq A]

omit [DecidableEq A] in
theorem TnsInv.gain {st' : Search V A} (inv : TnsInv st) (slacks : A → Slack) (out : v ∉ st.endpoints)
    (endpoints : st'.endpoints = insertVertex st.endpoints v) (tns : st'.tns = st.tns)
    (used : st'.tnsExists = st.tnsExists) (wnsSlack : ∀ u, st'.wnsSlack u = if u = v then slacks else st.wnsSlack u)
    (marks : ∀ u ∈ st.invalidTns, u ∈ st'.invalidTns) (here : st.tnsExists → v ∉ st'.invalidTns → ∀ a, 0 ≤ slacks a) :
    TnsInv st' := by
  refine ⟨endpoints ▸ nodup_insertVertex inv.distinct v, fun unused a => ?_, fun exists' a => ?_⟩
  · rw [tns]
    exact inv.unused (used ▸ unused) a
  · rw [used] at exists'
    rw [endpoints,tns]
    refine (inv.points exists' a).insert out (fun unmarked => ?_) fun u ne =>
      ⟨fun unmarked marked => unmarked (marks u marked), ?_⟩
    · rw [wnsSlack,if_pos rfl,negativeSlack,if_neg (not_lt.2 (here exists' unmarked a))]
    · rw [wnsSlack,if_neg ne]

theorem TnsInv.step (event : Event V A) (inv : TnsInv st) (meets : TnsMeets st event) : TnsInv (step st event) := by
  cases event with
  | slackChange v slacks =>
    refine ⟨by simpa [EndSlacks.step,setWnsSlack] using inv.distinct, fun unused a => ?_, fun exists' a => ?_⟩
    · simp only [EndSlacks.step,tnsInvalid_tnsExists,setWnsSlack] at unused
      simpa [EndSlacks.step,setWnsSlack] using inv.unused unused a
    · simp only [EndSlacks.step,tnsInvalid_tnsExists,setWnsSlack] at exists'
      have accurate := inv.points exists' a
      simp only [EndSlacks.step,tnsInvalid_endpoints,tnsInvalid_wnsSlack,tnsInvalid_tns]
      refine accurate.change rfl accurate.outside fun u mem unmarked => ?_
      have ne : u ≠ v := by
        rintro rfl
        exact unmarked (mem_tnsInvalid.2 (.inr ⟨rfl, by simp [setWnsSlack,exists'], mem⟩))
      simp only [setWnsSlack,ne,if_false]
      exact accurate.parts u mem fun marked => unmarked (mem_tnsInvalid.2 (.inl marked))
  | gain v slacks announced =>
    simp only [EndSlacks.step]
    split
    · exact inv
    next out =>
    cases announced with
    | true =>
      simp only [if_true]
      refine inv.gain slacks out (by simp [setWnsSlack]) (by simp [setWnsSlack]) (by simp [setWnsSlack])
        (by simp [setWnsSlack])
        (fun u marked => mem_tnsInvalid.2 (.inl marked)) fun exists' unmarked => ?_
      exact absurd (mem_tnsInvalid.2 (.inr ⟨rfl, by simp [setWnsSlack,exists'], by simp [setWnsSlack]⟩)) unmarked
    | false =>
      simp only [Bool.false_eq_true,if_false]
      refine inv.gain slacks out rfl rfl rfl (fun _ => rfl) (fun _ marked => marked) fun exists' unmarked => ?_
      rcases meets with announced | unused | marked | positive
      · cases announced
      · rw [exists'] at unused
        cases unused
      · exact absurd marked unmarked
      · exact positive
  | lose v announced =>
    have frame : (if announced then tnsInvalid st v else st).endpoints = st.endpoints ∧
        (if announced then tnsInvalid st v else st).tns = st.tns ∧
          (if announced then tnsInvalid st v else st).tnsExists = st.tnsExists ∧
        (if announced then tnsInvalid st v else st).wnsSlack = st.wnsSlack ∧
        ∀ u ∈ st.invalidTns, u ∈ (if announced then tnsInvalid st v else st).invalidTns := by
      cases announced with
      | true =>
        simp only [if_true,tnsInvalid_endpoints,tnsInvalid_tns,tnsInvalid_tnsExists,tnsInvalid_wnsSlack,true_and]
        exact fun u marked => mem_tnsInvalid.2 (.inl marked)
      | false => exact ⟨rfl, rfl, rfl, rfl, fun _ marked => marked⟩
    obtain ⟨endpoints, tns, exists'', wnsSlack, marks⟩ := frame
    simp only [EndSlacks.step]
    refine ⟨?_, fun unused a => ?_, fun exists' a => ?_⟩
    · exact endpoints ▸ nodup_eraseVertex inv.distinct v
    · exact tns ▸ inv.unused (exists'' ▸ unused) a
    · have exists' : st.tnsExists := exists'' ▸ exists'
      simp only [endpoints,tns,wnsSlack]
      exact (inv.points exists' a).erase (meets exists' a) fun u _ unmarked marked => unmarked (marks u marked)
  | deletePaths v => exact (inv.deletePaths v).1
  | deleteVertexBefore v =>
    obtain ⟨kept, none⟩ := inv.deletePaths v
    refine ⟨nodup_eraseVertex kept.distinct v, kept.unused, fun exists' a => ?_⟩
    refine (kept.points exists' a).erase (none a) fun u ne unmarked marked => ?_
    exact unmarked (mem_eraseVertex.2 ⟨marked, ne⟩)
  | totalNegativeSlack => exact inv.tnsPreamble.1
  | worstSlack a =>
    have kept : TnsInv (worstSlackPreamble st) := by
      unfold worstSlackPreamble
      split
      · exact inv.updateInvalidTns
      · exact ⟨inv.distinct, inv.unused, inv.points⟩
    exact ⟨kept.distinct, kept.unused, kept.points⟩

/-- Along a run that meets the conditions no vertex is added twice, only endpoints have a part in a total, and a query
for the total gives the sum of the negative slacks of the endpoints. -/
theorem totalNegativeSlack_exact (events : List (Event V A)) (along : Along TnsMeets initial events)
    (before : List (Event V A)) (isPrefix : before <+: events) (a : A) :
    ((run before).tns a).existing = false ∧ (∀ v, v ∉ (run before).endpoints → ((run before).tns a).slacks v = none) ∧
      ((tnsPreamble (run before)).tns a).total = negativeSum (run before).endpoints fun v =>
        (run before).wnsSlack v a := by
  have start : TnsInv (initial : Search V A) := ⟨List.nodup_nil, fun _ _ => rfl, fun exists' => by cases exists'⟩
  obtain ⟨inv, _⟩ := along.invariant (fun _ event inv => TnsInv.step event inv) start before isPrefix
  refine ⟨?_, fun v out => inv.part_none a out, inv.tnsPreamble.2 a⟩
  cases exists' : (run before).tnsExists with
  | false => rw [inv.unused exists' a]
  | true => exact (inv.points exists' a).existing

theorem totalNegativeSlack_exact_twoEnds :
    let events := twoEnds ++ [.totalNegativeSlack, .deletePaths 1, .lose 1 false, .deleteVertexBefore 1]
    ((run events).tns true).slacks 1 = none ∧
      ((tnsPreamble (run events)).tns true).total = negativeSum (run events).endpoints fun v =>
        (run events).wnsSlack v true := by
  have along : Along TnsMeets initial (twoEnds ++ [.totalNegativeSlack, .deletePaths 1, .lose 1 false,
    .deleteVertexBefore 1]) :=
    ⟨.inl rfl, .inl rfl, trivial, trivial, fun _ a => by cases a <;> decide +kernel, trivial, trivial⟩
  obtain ⟨_, parts, total⟩ := totalNegativeSlack_exact _ along _ (List.prefix_refl _) true
  exact ⟨parts 1 (by decide +kernel), total⟩

/-- A vertex that loses its edges before its paths are deleted keeps its part in the total and its entry. -/
theorem totalNegativeSlack_stale :
    let events := twoEnds ++ [.totalNegativeSlack, .lose 1 true, .deleteVertexBefore 1]
    (run events).endpoints = [0] ∧ ((run events).tns true).slacks 1 = some (-5) ∧
      ((tnsPreamble (run events)).tns true).total = -6 ∧
        negativeSum (run events).endpoints (fun v => (run events).wnsSlack v true) = -1 := by
  refine ⟨by decide +kernel, by decide +kernel, by decide +kernel, by decide +kernel⟩

end Runs
end GTPower.EndSlacks
