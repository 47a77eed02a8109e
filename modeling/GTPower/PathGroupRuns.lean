import Mathlib.Algebra.BigOperators.Group.List.Basic
import Mathlib.Algebra.Ring.Nat
import Mathlib.Data.Nat.Cast.Order.Ring
import GTPower.PathGroups

/-! Runs of the visitors of a path group: whatever their order, what is in the group and what the visitors would still
insert without a threshold have the worst ends of all endpoints. -/
namespace GTPower.PathGroups
open CappedQueues LeastElements

section Pruning
variable {E V K R : Type*} [LinearOrder E] [DecidableEq V] {d : PathEndData E V K R} {params : GroupParams}
    {group : PathGroup E}

def atVertex (d : PathEndData E V K R) (vertex : V) (pathEnd : E) : Bool := d.vertex pathEnd = vertex

omit [LinearOrder E] in
/-- No vertex has more ends than it may have, so that only the number of ends counts. -/
theorem squish_eq_take (pathEnds : List E) (counts : V → ℕ) (endCount : ℕ)
    (fits : ∀ vertex, ((counts vertex + pathEnds.countP (atVertex d vertex) : ℕ) : ℤ) ≤ params.endpointCount) :
    PathGroup.squish d params pathEnds counts endCount = pathEnds.take (params.groupCount.toNat - endCount) := by
  induction pathEnds generalizing counts endCount with
  | nil => simp [PathGroup.squish]
  | cons pathEnd pathEnds ih =>
    have here := fits (d.vertex pathEnd)
    rw [List.countP_cons_of_pos (by simp [atVertex])] at here
    rw [PathGroup.squish]
    split
    case isTrue room =>
      have left : params.groupCount.toNat - endCount = params.groupCount.toNat - (endCount + 1) + 1 := by omega
      rw [left,List.take_succ_cons]
      congr 1
      apply ih
      intro vertex
      have fit := fits vertex
      by_cases same : vertex = d.vertex pathEnd
      · rw [same] at fit ⊢
        rw [bump_self]
        omega
      · rw [bump_of_ne same]
        rw [List.countP_cons] at fit
        omega
    case isFalse full =>
      have noRoom : params.groupCount.toNat - endCount = 0 := by
        by_contra room
        exact full ⟨by omega, by omega⟩
      rw [noRoom,List.take_zero,ih counts endCount,noRoom,List.take_zero]
      intro vertex
      have fit := fits vertex
      rw [List.countP_cons] at fit
      omega

theorem prune_pathEnds (fits : ∀ vertex, (group.pathEnds.countP (atVertex d vertex) : ℤ) ≤ params.endpointCount) :
    (group.prune d params).pathEnds = least params.groupCount.toNat group.pathEnds := by
  apply (squish_eq_take _ _ 0 _).trans
  · rfl
  · intro vertex
    rw [zero_add,PathGroup.sort,(List.perm_insertionSort (· ≤ ·) group.pathEnds).countP_eq]
    exact fits vertex

theorem prune_filled (fits : ∀ vertex, (group.pathEnds.countP (atVertex d vertex) : ℤ) ≤ params.endpointCount)
    (many : params.groupCount.toNat ≤ group.pathEnds.length) : ∃ last ∈ group.pathEnds,
      (group.prune d params).threshold = PathGroup.measure d params last ∧
        Filled params.groupCount.toNat last (group.prune d params).pathEnds := by
  have pos := params.groupCount_pos
  have kept := prune_pathEnds fits
  have length : (least params.groupCount.toNat group.pathEnds).length = params.groupCount.toNat := by
    rw [length_least,min_eq_left many]
  cases found : (least params.groupCount.toNat group.pathEnds).getLast? with
  | none =>
    rw [List.getLast?_eq_none_iff.mp found] at length
    simp at length
    omega
  | some last =>
    refine ⟨last, mem_of_mem_least (List.mem_of_getLast? found), ?_, ?_⟩
    · have found' : (group.prune d params).pathEnds.getLast? = some last := by rw [kept,found]
      rw [PathGroup.prune] at found' ⊢
      simp only at found' ⊢
      rw [found']
    · rw [kept]
      exact filled_least many found

theorem int_eq {x : ℤ} (low : -2 ^ 31 ≤ x) (high : x < 2 ^ 31) : int x = x := Int.bmod_eq_of_le (by omega) (by omega)

/-- Without an overflow a group is pruned when it has twice as many ends as are wanted, and never when there is no
limit. -/
theorem insert_cases (small : params.groupCount ≠ groupCountMax → params.groupCount < 2 ^ 30)
    (size : params.groupCount ≠ groupCountMax → (group.pathEnds.length : ℤ) ≤ 2 * params.groupCount) (pathEnd : E) :
    group.insert d params pathEnd = { group with pathEnds := group.pathEnds ++ [pathEnd] } ∧
        (params.groupCount ≠ groupCountMax → ((group.pathEnds ++ [pathEnd]).length : ℤ) ≤ 2 * params.groupCount) ∨
      group.insert d params pathEnd = PathGroup.prune d params { group with pathEnds := group.pathEnds ++ [pathEnd] } ∧
        params.groupCount ≠ groupCountMax ∧ params.groupCount.toNat ≤ (group.pathEnds ++ [pathEnd]).length := by
  have pos := params.groupCount_pos
  by_cases limited : params.groupCount ≠ groupCountMax
  · have small := small limited
    have size := size limited
    have double : int (params.groupCount * 2) = params.groupCount * 2 := int_eq (by omega) (by omega)
    have cast : int ((group.pathEnds ++ [pathEnd]).length : ℕ) = ((group.pathEnds ++ [pathEnd]).length : ℕ) := by
      apply int_eq <;> simp <;> omega
    rw [PathGroup.insert]
    simp only [double,cast]
    by_cases more : params.groupCount * 2 < ((group.pathEnds ++ [pathEnd]).length : ℕ)
    · rw [if_pos ⟨limited, more⟩]
      exact Or.inr ⟨rfl, limited, by omega⟩
    · rw [if_neg fun prunes => more prunes.2]
      exact Or.inl ⟨rfl, fun _ => by omega⟩
  · rw [PathGroup.insert]
    simp only
    rw [if_neg fun prunes => limited prunes.1]
    exact Or.inl ⟨rfl, fun other => absurd other limited⟩

end Pruning
section Invariant
variable {E V K R : Type*} [LinearOrder E] [LinearOrder R] [DecidableEq V]

/-- What the visitors would still insert if nothing were refused for the threshold. -/
def State.pending (d : PathEndData E V K R) (params : GroupParams) (s : State E) : List E :=
  s.visitors.flatMap (Visitor.selected (inWindow d params))

structure Inv (ends : PathEnds E V K R) (params : GroupParams) (reference : List E) (s : State E) : Prop where
  inside : ∀ pathEnd ∈ s.group.pathEnds, inWindow ends.toPathEndData params pathEnd = true
  careful : ∀ visitor ∈ s.visitors, Careful (inWindow ends.toPathEndData params) (key ends params) visitor
  tight : s.group.threshold = params.minMax.initValue ∨ ∃ last, inWindow ends.toPathEndData params last = true ∧
    params.toKey s.group.threshold = key ends params last ∧ Filled params.groupCount.toNat last s.group.pathEnds
  worst : least params.groupCount.toNat (s.group.pathEnds ++ s.pending ends.toPathEndData params) =
    least params.groupCount.toNat reference
  vertices : ∀ vertex, ((s.group.pathEnds.countP (atVertex ends.toPathEndData vertex) +
    (s.visitors.map (Visitor.most (atVertex ends.toPathEndData vertex))).sum : ℕ) : ℤ) ≤ params.endpointCount
  unlimited : params.groupCount = groupCountMax → s.group.threshold = params.minMax.initValue ∧
    (s.group.pathEnds ++ s.pending ends.toPathEndData params).length = reference.length

variable {ends : PathEnds E V K R} {params : GroupParams} {reference : List E}

theorem Inv.threshold_le {s : State E} (inv : Inv ends params reference s) :
    params.toKey s.group.threshold ≤ params.toKey params.minMax.initValue := by
  obtain initial | ⟨last, window, threshold, _⟩ := inv.tight
  · rw [initial]
  · exact threshold ▸ key_le_init window

omit [DecidableEq V] in
theorem pending_split (group : PathGroup E) (before after : List (Visitor E)) (visitor : Visitor E) :
    State.pending ends.toPathEndData params ⟨group, before ++ visitor :: after⟩ =
      before.flatMap (Visitor.selected (inWindow ends.toPathEndData params)) ++
        (visitor.selected (inWindow ends.toPathEndData params) ++
          after.flatMap (Visitor.selected (inWindow ends.toPathEndData params))) := by
  rw [State.pending,List.flatMap_append,List.flatMap_cons]

omit [DecidableEq V] in
theorem pending_of_finished {s : State E} (finished : s.finished = true) :
    s.pending ends.toPathEndData params = [] := by
  apply List.flatMap_eq_nil_iff.mpr
  intro visitor mem
  have done := List.all_eq_true.mp finished visitor mem
  cases visitor with
  | done => rfl
  | savable => exact Bool.noConfusion done
  | insert => exact Bool.noConfusion done

variable {group : PathGroup E} {before after : List (Visitor E)} {pathEnd : E}

/-- An end of the window that is refused is above a bound of the worst ends, and so is what its refusal changes. -/
theorem Inv.refused (accepts : Accepts ends params) (inv : Inv ends params reference ⟨group, visitors⟩)
    {old new : List E} (window : inWindow ends.toPathEndData params pathEnd = true)
    (answer : group.savable ends.toPathEndData params pathEnd = false)
    (inside : ∀ other ∈ old ++ new, inWindow ends.toPathEndData params other = true)
    (worse : ∀ other ∈ old ++ new, key ends params pathEnd ≤ key ends params other) (first rest : List E) :
    least params.groupCount.toNat (group.pathEnds ++ (first ++ (old ++ rest))) =
      least params.groupCount.toNat (group.pathEnds ++ (first ++ (new ++ rest))) := by
  obtain initial | ⟨last, lastWindow, threshold, filled⟩ := inv.tight
  · rw [savable_init initial,window] at answer
    exact Bool.noConfusion answer
  · have less : key ends params last < key ends params pathEnd := by
      rw [← threshold]
      by_contra le
      rw [(savable_iff inv.threshold_le).mpr ⟨window, not_lt.mp le⟩] at answer
      exact Bool.noConfusion answer
    have above : ∀ other ∈ old ++ new, last < other := by
      intro other mem
      by_contra le
      exact absurd (key_mono accepts (inside other mem) (not_lt.mp le)) (not_le.mpr (less.trans_le (worse other mem)))
    rw [filled.between (fun other mem => above other (List.mem_append_left _ mem)),
      filled.between (fun other mem => above other (List.mem_append_right _ mem))]

theorem Inv.savable (accepts : Accepts ends params) {next : Bool → Visitor E}
    (inv : Inv ends params reference ⟨group, before ++ .savable pathEnd next :: after⟩) :
    Inv ends params reference
      ⟨group, before ++ next (group.savable ends.toPathEndData params pathEnd) :: after⟩ := by
  obtain ⟨saved, refused, exchange⟩ := (inv.careful _ (List.mem_append_right _ List.mem_cons_self)).of_savable
  have within : group.savable ends.toPathEndData params pathEnd = true →
    inWindow ends.toPathEndData params pathEnd = true :=
    fun answer => ((savable_iff inv.threshold_le).mp answer).1
  have same : group.savable ends.toPathEndData params pathEnd = inWindow ends.toPathEndData params pathEnd →
      State.pending ends.toPathEndData params ⟨group,
        before ++ next (group.savable ends.toPathEndData params pathEnd) :: after⟩ =
        State.pending ends.toPathEndData params ⟨group, before ++ .savable pathEnd next :: after⟩ := by
    intro answer
    rw [pending_split,pending_split,answer,Visitor.selected]
  constructor
  case inside => exact inv.inside
  case tight => exact inv.tight
  case careful =>
    intro visitor mem
    obtain mem | mem := List.mem_append.mp mem
    · exact inv.careful visitor (List.mem_append_left _ mem)
    · obtain rfl | mem := List.mem_cons.mp mem
      · cases answer : group.savable ends.toPathEndData params pathEnd with
        | true => exact saved (within answer)
        | false => exact refused
      · exact inv.careful visitor (List.mem_append_right _ (List.mem_cons_of_mem _ mem))
  case worst =>
    rw [← inv.worst]
    by_cases answer : group.savable ends.toPathEndData params pathEnd = inWindow ends.toPathEndData params pathEnd
    · rw [same answer]
    · have no : group.savable ends.toPathEndData params pathEnd = false :=
        Bool.eq_false_iff.mpr fun yes => answer (yes.trans (within yes).symm)
      have window : inWindow ends.toPathEndData params pathEnd = true := by
        rw [no] at answer
        exact Bool.eq_true_of_not_eq_false (Ne.symm answer)
      rw [pending_split,pending_split,no,Visitor.selected,window]
      obtain equal | worse := exchange window
      · rw [equal]
      · refine (inv.refused accepts window no (fun other mem => ?_) worse _ _).symm
        obtain mem | mem := List.mem_append.mp mem
        · exact (saved window).window other mem
        · exact refused.window other mem
  case vertices =>
    intro vertex
    have fit := inv.vertices vertex
    have le : (next (group.savable ends.toPathEndData params pathEnd)).most (atVertex ends.toPathEndData vertex) ≤
        (Visitor.savable pathEnd next).most (atVertex ends.toPathEndData vertex) := by
      rw [Visitor.most]
      cases group.savable ends.toPathEndData params pathEnd with
      | true => exact le_max_left _ _
      | false => exact le_max_right _ _
    simp only [List.map_append,List.map_cons,List.sum_append,List.sum_cons] at fit ⊢
    omega
  case unlimited =>
    intro noLimit
    obtain ⟨initial, length⟩ := inv.unlimited noLimit
    exact ⟨initial, by rw [same (savable_init initial pathEnd)]; exact length⟩

theorem Inv.push {next : Visitor E} (inv : Inv ends params reference ⟨group, before ++ .insert pathEnd next :: after⟩) :
    Inv ends params reference ⟨{ group with pathEnds := group.pathEnds ++ [pathEnd] }, before ++ next :: after⟩ := by
  obtain ⟨window, rest⟩ := (inv.careful _ (List.mem_append_right _ List.mem_cons_self)).of_insert
  have perm : (group.pathEnds ++ [pathEnd] ++ State.pending ends.toPathEndData params
        ⟨{ group with pathEnds := group.pathEnds ++ [pathEnd] }, before ++ next :: after⟩).Perm
      (group.pathEnds ++ State.pending ends.toPathEndData params ⟨group, before ++ .insert pathEnd next :: after⟩) := by
    rw [pending_split,pending_split,Visitor.selected,List.append_assoc,List.singleton_append,List.cons_append]
    apply List.Perm.append_left
    exact List.perm_middle.symm
  constructor
  case inside =>
    intro other mem
    obtain mem | mem := List.mem_append.mp mem
    · exact inv.inside other mem
    · rw [List.mem_singleton.mp mem]
      exact window
  case careful =>
    intro visitor mem
    obtain mem | mem := List.mem_append.mp mem
    · exact inv.careful visitor (List.mem_append_left _ mem)
    · obtain rfl | mem := List.mem_cons.mp mem
      · exact rest
      · exact inv.careful visitor (List.mem_append_right _ (List.mem_cons_of_mem _ mem))
  case tight =>
    apply inv.tight.imp_right
    rintro ⟨last, lastWindow, threshold, filled⟩
    exact ⟨last, lastWindow, threshold, (filled.append [pathEnd]).perm List.perm_append_comm⟩
  case worst => rw [← inv.worst,least_perm _ perm]
  case vertices =>
    intro vertex
    have fit := inv.vertices vertex
    simp only [List.map_append,List.map_cons,List.sum_append,List.sum_cons,Visitor.most] at fit
    simp only [List.countP_append,List.countP_singleton,List.map_append,List.map_cons,List.sum_append,List.sum_cons]
    omega
  case unlimited =>
    intro noLimit
    obtain ⟨initial, length⟩ := inv.unlimited noLimit
    exact ⟨initial, by rw [perm.length_eq]; exact length⟩

theorem Inv.fits {s : State E} (inv : Inv ends params reference s) (vertex : V) :
    (s.group.pathEnds.countP (atVertex ends.toPathEndData vertex) : ℤ) ≤ params.endpointCount := by
  have fit := inv.vertices vertex
  omega

/-- A group that is pruned keeps the worst ends, and the last of them is the bound of its threshold. -/
theorem Inv.prune {visitors : List (Visitor E)} (inv : Inv ends params reference ⟨group, visitors⟩)
    (limited : params.groupCount ≠ groupCountMax) (many : params.groupCount.toNat ≤ group.pathEnds.length) :
    Inv ends params reference ⟨group.prune ends.toPathEndData params, visitors⟩ := by
  have kept := prune_pathEnds inv.fits
  constructor
  case inside =>
    intro other mem
    rw [kept] at mem
    exact inv.inside other (mem_of_mem_least mem)
  case careful => exact inv.careful
  case tight =>
    obtain ⟨last, mem, threshold, filled⟩ := prune_filled inv.fits many
    refine Or.inr ⟨last, inv.inside last mem, ?_, filled⟩
    rw [threshold,key]
  case worst =>
    rw [kept,least_least_append]
    exact inv.worst
  case vertices =>
    intro vertex
    have fewer : (least params.groupCount.toNat group.pathEnds).countP (atVertex ends.toPathEndData vertex) ≤
        group.pathEnds.countP (atVertex ends.toPathEndData vertex) := by
      rw [← (List.perm_insertionSort (· ≤ ·) group.pathEnds).countP_eq]
      exact (List.take_sublist _ _).countP_le
    rw [kept]
    exact (Int.ofNat_le.mpr (Nat.add_le_add_right fewer _)).trans (inv.vertices vertex)
  case unlimited => exact fun noLimit => absurd noLimit limited

/-- As many ends as a group has between two calls. -/
def Sized (params : GroupParams) (group : PathGroup E) : Prop :=
  params.groupCount ≠ groupCountMax → (group.pathEnds.length : ℤ) ≤ 2 * params.groupCount

theorem Inv.insert {next : Visitor E} (small : params.groupCount ≠ groupCountMax → params.groupCount < 2 ^ 30)
    (sized : Sized params group) (inv : Inv ends params reference ⟨group, before ++ .insert pathEnd next :: after⟩) :
    Inv ends params reference ⟨group.insert ends.toPathEndData params pathEnd, before ++ next :: after⟩ ∧
      Sized params (group.insert ends.toPathEndData params pathEnd) := by
  obtain ⟨pushed, size⟩ | ⟨pruned, limited, many⟩ := insert_cases (d := ends.toPathEndData) small sized pathEnd
  · rw [pushed]
    exact ⟨inv.push, size⟩
  · rw [pruned]
    refine ⟨inv.push.prune limited many, fun _ => ?_⟩
    rw [prune_pathEnds inv.push.fits,length_least]
    have pos := params.groupCount_pos
    omega

omit [LinearOrder E] in
theorem exists_split {visitors : List (Visitor E)} {i : ℕ} {visitor : Visitor E} (found : visitors[i]? = some visitor) :
    ∃ before after, visitors = before ++ visitor :: after ∧ ∀ next, visitors.set i next = before ++ next :: after := by
  obtain ⟨inside, rfl⟩ := List.getElem?_eq_some_iff.mp found
  refine ⟨visitors.take i, visitors.drop (i + 1), ?_, fun next => ?_⟩
  · rw [List.getElem_cons_drop,List.take_append_drop]
  · rw [List.set_eq_take_append_cons_drop,if_pos inside]

theorem Inv.advance (accepts : Accepts ends params)
    (small : params.groupCount ≠ groupCountMax → params.groupCount < 2 ^ 30) {s : State E}
    (sized : Sized params s.group) (inv : Inv ends params reference s) (i : ℕ) :
    Inv ends params reference (s.advance ends.toPathEndData params i) ∧
      Sized params (s.advance ends.toPathEndData params i).group := by
  obtain ⟨group, visitors⟩ := s
  rw [State.advance]
  cases found : visitors[i]? with
  | none => exact ⟨inv, sized⟩
  | some visitor =>
    obtain ⟨before, after, split, set⟩ := exists_split found
    subst split
    simp only [set]
    cases visitor with
    | done => exact ⟨inv, sized⟩
    | savable pathEnd next => exact ⟨inv.savable accepts, sized⟩
    | insert pathEnd next => exact inv.insert small sized

theorem Inv.execute (accepts : Accepts ends params)
    (small : params.groupCount ≠ groupCountMax → params.groupCount < 2 ^ 30) {s : State E}
    (sized : Sized params s.group) (inv : Inv ends params reference s) (schedule : List ℕ) :
    Inv ends params reference (s.execute ends.toPathEndData params schedule) ∧
      Sized params (s.execute ends.toPathEndData params schedule).group := by
  induction schedule generalizing s with
  | nil => exact ⟨inv, sized⟩
  | cons i schedule ih =>
    obtain ⟨inv', sized'⟩ := inv.advance accepts small sized i
    exact ih sized' inv'

end Invariant

section Start
variable {E V K R : Type*} [LinearOrder E] [LinearOrder R] [DecidableEq K] {params : GroupParams}

/-- A sort by slack, of which no more is known than that no end is behind one that is compared as greater. -/
structure SlackSort (ends : PathEnds E V K R) where
  sort : List E → List E
  perm (pathEnds : List E) : (sort pathEnds).Perm pathEnds
  sorted (pathEnds : List E) : (sort pathEnds).Pairwise fun pathEnd other => ends.slackCmp other pathEnd ≠ .lt

variable {ends : PathEnds E V K R} (sort : SlackSort ends)

theorem selected_visit (pathEnds : List E) :
    (Visitor.visit ends.toPathEndData params sort.sort pathEnds).selected (inWindow ends.toPathEndData params) =
      worstEnds ends.toPathEndData params sort.sort pathEnds := by
  rw [Visitor.visit,worstEnds]
  split
  case isTrue => exact selected_makePathEnds1 pathEnds none
  case isFalse => exact selected_makePathEndsAll ends.toPathEndData params (sort.sort pathEnds) [] 0

theorem careful_visit (accepts : Accepts ends params) (pathEnds : List E) :
    Careful (inWindow ends.toPathEndData params) (key ends params)
      (Visitor.visit ends.toPathEndData params sort.sort pathEnds) := by
  rw [Visitor.visit]
  split
  case isTrue =>
    exact careful_makePathEnds1 (fun window le => key_mono accepts window le) pathEnds none fun _ mem =>
      absurd mem (by simp)
  case isFalse =>
    apply careful_makePathEndsAll
    exact (sort.sorted pathEnds).imp fun behind window => key_le_of_sorted accepts window behind

theorem most_visit_eq_zero (kind : E → Bool) (pathEnds : List E) (others : ∀ pathEnd ∈ pathEnds, kind pathEnd = false) :
    (Visitor.visit ends.toPathEndData params sort.sort pathEnds).most kind = 0 := by
  rw [Visitor.visit]
  split
  case isTrue => exact most_makePathEnds1_eq_zero pathEnds none others fun _ mem => absurd mem (by simp)
  case isFalse =>
    apply most_makePathEndsAll_eq_zero
    exact fun pathEnd mem => others pathEnd ((sort.perm pathEnds).mem_iff.mp mem)

variable [DecidableEq V]

/-- The endpoints have different vertices, so that one visitor alone inserts ends at a vertex. -/
theorem sum_most_le (endpoints : List (Endpoint ends.toPathEndData)) (distinct : (endpoints.map (·.vertex)).Nodup)
    (vertex : V) :
    (((endpoints.map fun endpoint => Visitor.visit ends.toPathEndData params sort.sort endpoint.pathEnds).map
      (Visitor.most (atVertex ends.toPathEndData vertex))).sum : ℤ) ≤ params.endpointCount := by
  have elsewhere (endpoint : Endpoint ends.toPathEndData) (apart : endpoint.vertex ≠ vertex) :
      (Visitor.visit ends.toPathEndData params sort.sort endpoint.pathEnds).most (atVertex ends.toPathEndData vertex) =
        0 := by
    apply most_visit_eq_zero
    intro pathEnd mem
    rw [atVertex,endpoint.at_vertex pathEnd mem]
    exact decide_eq_false apart
  induction endpoints with
  | nil =>
    have pos := params.endpointCount_pos
    simp
    omega
  | cons endpoint endpoints ih =>
    obtain ⟨fresh, distinct⟩ := List.nodup_cons.mp distinct
    rw [List.map_cons,List.map_cons,List.sum_cons]
    by_cases here : endpoint.vertex = vertex
    · have rest : ((endpoints.map fun endpoint =>
        Visitor.visit ends.toPathEndData params sort.sort endpoint.pathEnds).map
          (Visitor.most (atVertex ends.toPathEndData vertex))).sum = 0 := by
        rw [List.map_map]
        apply List.sum_eq_zero
        intro count counted
        obtain ⟨other, mem, rfl⟩ := List.mem_map.mp counted
        apply elsewhere
        intro same
        exact fresh (List.mem_map.mpr ⟨other, mem, same.trans here.symm⟩)
      rw [rest,Nat.add_zero]
      exact most_visit ends.toPathEndData params sort.sort _ _
    · rw [elsewhere endpoint here,Nat.zero_add]
      exact ih distinct

theorem inv_start (accepts : Accepts ends params) (endpoints : List (Endpoint ends.toPathEndData))
    (distinct : (endpoints.map (·.vertex)).Nodup) :
    Inv ends params (endpoints.flatMap fun endpoint => worstEnds ends.toPathEndData params sort.sort endpoint.pathEnds)
      (start ends.toPathEndData params sort.sort endpoints) := by
  have pending : State.pending ends.toPathEndData params (start ends.toPathEndData params sort.sort endpoints) =
      endpoints.flatMap fun endpoint => worstEnds ends.toPathEndData params sort.sort endpoint.pathEnds := by
    rw [State.pending,start,List.flatMap_map]
    simp only [selected_visit]
  constructor
  case inside => exact fun _ mem => absurd mem List.not_mem_nil
  case careful =>
    intro visitor mem
    obtain ⟨endpoint, _, rfl⟩ := List.mem_map.mp mem
    exact careful_visit sort accepts endpoint.pathEnds
  case tight => exact Or.inl rfl
  case worst => rw [pending]; rfl
  case vertices =>
    intro vertex
    rw [start]
    simp only [GroupParams.init,List.countP_nil,Nat.zero_add]
    exact sum_most_le sort endpoints distinct vertex
  case unlimited => exact fun _ => ⟨rfl, by rw [pending]; rfl⟩

end Start

section Finish
variable {E V K R : Type*} [LinearOrder E] [DecidableEq V] (d : PathEndData E V K R) (params : GroupParams)

/-- The most calls that a visitor still makes. -/
def Visitor.calls : Visitor E → ℕ
  | done => 0
  | savable _ next => max (next true).calls (next false).calls + 1
  | insert _ next => next.calls + 1

theorem calls_call (group : PathGroup E) (visitor : Visitor E) (unfinished : visitor.isDone = false) :
    (visitor.call d params group).2.calls < visitor.calls := by
  cases visitor with
  | done => exact Bool.noConfusion unfinished
  | savable pathEnd next =>
    rw [Visitor.call,Visitor.calls]
    cases group.savable d params pathEnd with
    | true => exact Nat.lt_succ_of_le (le_max_left _ _)
    | false => exact Nat.lt_succ_of_le (le_max_right _ _)
  | insert pathEnd next => exact Nat.lt_succ_self _

theorem calls_advance {s : State E} {i : ℕ} {visitor : Visitor E} (found : s.visitors[i]? = some visitor)
    (unfinished : visitor.isDone = false) :
    ((s.advance d params i).visitors.map Visitor.calls).sum < (s.visitors.map Visitor.calls).sum := by
  obtain ⟨before, after, split, set⟩ := exists_split found
  rw [State.advance,found]
  simp only [set]
  rw [split]
  simp only [List.map_append,List.map_cons,List.sum_append,List.sum_cons]
  have less := calls_call d params s.group visitor unfinished
  omega

/-- From every state there are calls that finish all visitors. -/
theorem exists_finished (s : State E) : ∃ schedule, (s.execute d params schedule).finished = true := by
  induction left : (s.visitors.map Visitor.calls).sum using Nat.strong_induction_on generalizing s with
  | _ calls ih =>
    cases finished : s.finished with
    | true => exact ⟨[], finished⟩
    | false =>
      obtain ⟨visitor, mem, unfinished⟩ := List.all_eq_false.mp finished
      obtain ⟨i, found⟩ := List.mem_iff_getElem?.mp mem
      have less := calls_advance d params found (Bool.eq_false_iff.mpr unfinished)
      obtain ⟨schedule, done⟩ := ih _ (left ▸ less) (s.advance d params i) rfl
      exact ⟨i :: schedule, done⟩

end Finish

section Numbers

def numbers : PathEnds ℕ ℕ ℕ ℕ where
  vertex pathEnd := pathEnd % 2
  isUnconstrained _ := false
  minMax _ := .max
  dataArrivalTime _ := 0
  slack pathEnd := pathEnd
  slackNoCrpr pathEnd := pathEnd
  borrow _ := none
  noCrpr pathEnd := pathEnd / 4
  paths pathEnd := pathEnd
  less_iff pathEnd1 pathEnd2 := by
    have byNumber (a b : ℕ) : compare (a : ℚ) b = compare a b := by
      cases order : compare a b with
      | lt => exact compare_lt_iff_lt.mpr (Nat.cast_lt.mpr (compare_lt_iff_lt.mp order))
      | eq => exact compare_eq_iff_eq.mpr (congrArg _ (compare_eq_iff_eq.mp order))
      | gt => exact compare_gt_iff_gt.mpr (Nat.cast_lt.mpr (compare_gt_iff_gt.mp order))
    simp [PathEndData.cmp,PathEndData.slackCmp,PathEndData.cmpSlack,byNumber,compare_lt_iff_lt]
  crpr _ := le_rfl
  unconstrained no := Bool.noConfusion no

def numberSort : SlackSort numbers where
  sort pathEnds := pathEnds.insertionSort (· ≤ ·)
  perm pathEnds := List.perm_insertionSort _ pathEnds
  sorted pathEnds := by
    apply (List.pairwise_insertionSort (· ≤ ·) pathEnds).imp
    intro pathEnd other le less
    exact absurd (Nat.cast_lt.mp (compare_lt_iff_lt.mp less)) (not_lt.mpr le)

def numberGroup (groupCount endpointCount : ℤ) (pos : 1 ≤ groupCount) (le : groupCount ≤ groupCountMax)
    (pos' : 1 ≤ endpointCount) :
    GroupParams := ⟨groupCount, endpointCount, 0, 100, true, .min, fun _ => rfl, pos, le, pos'⟩

def oneOfTwo : GroupParams := numberGroup 1 2 (by decide) (by decide) (by decide)

def twoEndpoints : List (Endpoint numbers.toPathEndData) := [⟨0, [4, 0, 2], by decide⟩, ⟨1, [5, 1], by decide⟩]

def overflowing : GroupParams := numberGroup (2 ^ 30) 1 (by decide) (by decide) (by decide)

def singleEnds : List (Endpoint numbers.toPathEndData) := [⟨1, [1], by decide⟩, ⟨0, [2], by decide⟩]

end Numbers
end GTPower.PathGroups
