import GTPower.FilteredArrivals

/-! After the results of a filter are deleted no vertex, tag group, tag or clock information refers to an object that is
gone. -/
namespace GTPower.Search

section Invariant

structure NothingDangling (st : Search) : Prop where
  vertices : ∀ vertex i, st.tagGroupIndex vertex = some i → ∃ group, st.tagGroups.entry i = some group
  tagGroups : ∀ i group, st.tagGroups.entry i = some group →
    ∀ tag ∈ group.arrivalMap, st.tags.entry tag.index = some tag
  tags : ∀ i tag, st.tags.entry i = some tag → tag.clkInfo ∈ st.clkInfoSet
  clkInfos : ∀ clkInfo ∈ st.clkInfoSet, ∀ path, clkInfo.crprClkPath = some path →
    ∃ tag, st.tags.entry path.tagIndex = some tag ∧ tag.id = path.tag
  tagIndices : ∀ i < st.tags.next, i ∈ st.tags.free ↔ st.tags.entry i = none
  tagGroupIndices : ∀ i < st.tagGroups.next, i ∈ st.tagGroups.free ↔ st.tagGroups.entry i = none

/-- Tags and what they refer to. A tag is a filter tag by its states alone, and one whose clock path was filtered is
one. -/
structure TagsConsistent (st : Search) : Prop where
  valid : st.tags.Valid
  index : ∀ i tag, st.tags.entry i = some tag → tag.index = i
  clkInfo : ∀ i tag, st.tags.entry i = some tag → tag.clkInfo ∈ st.clkInfoSet
  crpr : ∀ clkInfo ∈ st.clkInfoSet, ∀ path, clkInfo.crprClkPath = some path →
    ∃ tag, st.tags.entry path.tagIndex = some tag ∧ tag.id = path.tag
  filter : ∀ exception, st.filter = some exception → exception.isFilter
  states : ∀ i tag, st.tags.entry i = some tag → ∀ state ∈ tag.states, state.exception.isFilter →
    st.filter = some state.exception
  isFilter : ∀ i tag, st.tags.entry i = some tag → (tag.isFilter ↔ ∃ state ∈ tag.states, state.exception.isFilter)
  refs : ∀ i tag, st.tags.entry i = some tag → st.refsFilter tag.clkInfo → tag.isFilter

/-- Tag groups and the vertices that have them. -/
structure GroupsConsistent (st : Search) : Prop where
  valid : st.tagGroups.Valid
  index : ∀ i group, st.tagGroups.entry i = some group → group.index = i
  tags : ∀ i group, st.tagGroups.entry i = some group → ∀ tag ∈ group.arrivalMap, st.tags.entry tag.index = some tag
  hasFilter : ∀ i group, st.tagGroups.entry i = some group → ∀ tag ∈ group.arrivalMap, tag.isFilter → group.hasFilterTag
  noFilter : st.filter = none → ∀ i group, st.tagGroups.entry i = some group → group.hasFilterTag = false
  vertices : ∀ vertex i, st.tagGroupIndex vertex = some i →
    ∃ group, st.tagGroups.entry i = some group ∧ (group.hasFilterTag → vertex ∈ st.filteredArrivals)

structure Consistent (st : Search) : Prop where
  tags : TagsConsistent st
  groups : GroupsConsistent st

theorem Consistent.nothingDangling {st : Search} (consistent : Consistent st) : NothingDangling st where
  vertices vertex i there := (consistent.groups.vertices vertex i there).imp fun _ found => found.1
  tagGroups := consistent.groups.tags
  tags := consistent.tags.clkInfo
  clkInfos := consistent.tags.crpr
  tagIndices i inside := (consistent.tags.valid.mem_free i).trans (and_iff_right inside)
  tagGroupIndices i inside := (consistent.groups.valid.mem_free i).trans (and_iff_right inside)

theorem consistent_initial : Consistent initial where
  tags := {
    valid := SlotTable.valid_empty
    index := fun i tag filled => by cases filled
    clkInfo := fun i tag filled => by cases filled
    crpr := fun clkInfo mem => by cases mem
    filter := fun exception set => by cases set
    states := fun i tag filled => by cases filled
    isFilter := fun i tag filled => by cases filled
    refs := fun i tag filled => by cases filled }
  groups := {
    valid := SlotTable.valid_empty
    index := fun i group filled => by cases filled
    tags := fun i group filled => by cases filled
    hasFilter := fun i group filled => by cases filled
    noFilter := fun _ i group filled => by cases filled
    vertices := fun vertex i there => by cases there }

end Invariant

section Tags
variable {st next : Search} {crprActive : Bool} {info : ClkInfo} {tag : Tag}

theorem TagsConsistent.refsFilter_put (consistent : TagsConsistent st) (mem : info ∈ st.clkInfoSet) (tag : Tag)
    (nextId : ℕ) :
    refsFilter { st with tags := st.tags.put tag, nextId := nextId } info = st.refsFilter info := by
  rw [refsFilter,refsFilter]
  cases crprClkPath : info.crprClkPath with
  | none => rfl
  | some path =>
    obtain ⟨other, filled, -⟩ := consistent.crpr info mem path crprClkPath
    have kept := (consistent.valid.entry_put_iff tag other path.tagIndex).mpr (Or.inr filled)
    simp only [kept,filled]

theorem Consistent.findClkInfo (consistent : Consistent st) (attributes : ClkAttributes)
    (crprClkPath : Option PathVertexRep)
    (filled : ∀ path, crprClkPath = some path → ∃ tag, st.tags.entry path.tagIndex = some tag ∧ tag.id = path.tag) :
    Consistent (st.findClkInfo crprActive attributes crprClkPath).1 := by
  obtain ⟨tags, groups⟩ := consistent
  rw [Search.findClkInfo]
  split
  · exact ⟨tags, groups⟩
  · refine ⟨{ tags with clkInfo := fun i tag filled => List.mem_append_left _ (tags.clkInfo i tag filled), crpr := ?_ },
      { groups with }⟩
    intro info mem path same
    rcases List.mem_append.mp mem with old | new
    · exact tags.crpr info old path same
    · rw [List.mem_singleton.mp new] at same
      exact filled path same

theorem isFilter_makeTag (attributes : TagAttributes) (info : ClkInfo)
    (filter : ∀ exception, st.filter = some exception → exception.isFilter)
    (states : ∀ state ∈ newStates, state.exception.isFilter → st.filter = some state.exception) :
    (st.makeTag attributes info newStates).isFilter ↔ ∃ state ∈ newStates, state.exception.isFilter := by
  rw [makeTag,decide_eq_true_iff,Finset.filter_nonempty_iff]
  constructor
  · rintro ⟨state, mem, same⟩
    exact ⟨state, mem, filter _ same.symm⟩
  · rintro ⟨state, mem, kind⟩
    exact ⟨state, mem, (states state mem kind).symm⟩

theorem Consistent.findTag (consistent : Consistent st) (mem : info ∈ st.clkInfoSet)
    (states : ∀ state ∈ newStates, state.exception.isFilter → st.filter = some state.exception)
    (refs : st.refsFilter info → ∃ state ∈ newStates, state.exception.isFilter)
    (found : st.findTag attributes info newStates = some (next, tag)) : Consistent next := by
  rw [Search.findTag] at found
  split at found
  · cases found
    exact consistent
  · simp only [Option.ite_none_left_eq_some,Option.some.injEq,Prod.mk.injEq] at found
    obtain ⟨-, rfl, rfl⟩ := found
    obtain ⟨tags, groups⟩ := consistent
    have entry := tags.valid.entry_put_iff (st.makeTag attributes info newStates)
    have kept : ∀ {i other}, st.tags.entry i = some other →
      (st.tags.put (st.makeTag attributes info newStates)).entry i = some other :=
      fun filled => (entry _ _).mpr (Or.inr filled)
    have isFilter := isFilter_makeTag attributes info tags.filter states
    constructor
    · refine { tags with
        valid := tags.valid.put _
        index := fun i other filled => ?_
        clkInfo := fun i other filled => ?_
        crpr := fun other mem path same => (tags.crpr other mem path same).imp fun _ found => ⟨kept found.1, found.2⟩
        states := fun i other filled => ?_
        isFilter := fun i other filled => ?_
        refs := fun i other filled => ?_ }
      all_goals rcases (entry other i).mp filled with ⟨rfl, rfl⟩ | old
      · rfl
      · exact tags.index i other old
      · exact mem
      · exact tags.clkInfo i other old
      · exact states
      · exact tags.states i other old
      · exact isFilter
      · exact tags.isFilter i other old
      · exact fun filtered => isFilter.mpr (refs ((tags.refsFilter_put mem _ _).symm.trans filtered))
      · exact fun filtered => tags.refs i other old
          ((tags.refsFilter_put (tags.clkInfo i other old) _ _).symm.trans filtered)
    · exact { groups with tags := fun i group filled other mem => kept (groups.tags i group filled other mem) }

end Tags

section Groups
variable {st next : Search} {crprActive : Bool} {bldr bldr' : TagGroupBldr} {tag : Tag} {arrivals : List ArrivalStep}

/-- While a group is built its tags exist, and the flag is raised when one of them is a filter tag. -/
structure BldrConsistent (st : Search) (bldr : TagGroupBldr) : Prop where
  tags : ∀ tag ∈ bldr.arrivalMap, st.tags.entry tag.index = some tag
  hasFilter : ∀ tag ∈ bldr.arrivalMap, tag.isFilter → bldr.hasFilterTag
  noFilter : st.filter = none → bldr.hasFilterTag = false

theorem bldrConsistent_init (st : Search) : BldrConsistent st TagGroupBldr.init where
  tags tag mem := by cases mem
  hasFilter tag mem := by cases mem
  noFilter _ := rfl

theorem TagsConsistent.isFilter_tagMatch (consistent : TagsConsistent st) (filled : st.tags.entry tag.index = some tag)
    (filled' : st.tags.entry other.index = some other) (same : tagMatch crprActive tag other) (kind : tag.isFilter) :
    other.isFilter := by
  simp only [tagMatch,Bool.or_eq_true,Bool.and_eq_true,decide_eq_true_eq] at same
  rcases same with rfl | ⟨-, states⟩
  · exact kind
  · rw [consistent.isFilter _ _ filled] at kind
    rw [consistent.isFilter _ _ filled',← states]
    exact kind

theorem TagsConsistent.not_isFilter (consistent : TagsConsistent st) (none : st.filter = none)
    (filled : st.tags.entry i = some tag) :
    tag.isFilter = false := by
  apply Bool.eq_false_iff.mpr
  intro kind
  obtain ⟨state, mem, kind⟩ := (consistent.isFilter i tag filled).mp kind
  have set := consistent.states i tag filled state mem kind
  rw [none] at set
  cases set

theorem BldrConsistent.setArrival (bldrConsistent : BldrConsistent st bldr) (consistent : TagsConsistent st)
    (filled : st.tags.entry tag.index = some tag) : BldrConsistent st (bldr.setArrival crprActive st tag) := by
  obtain ⟨tags, hasFilter, noFilter⟩ := bldrConsistent
  rw [TagGroupBldr.setArrival]
  cases found : bldr.tagMatchArrival crprActive tag with
  | some matched =>
    rw [TagGroupBldr.setMatchArrival.eq_def]
    have mem := List.mem_of_find?_eq_some found
    have same := List.find?_some found
    by_cases replaced : matched ≠ tag
    · simp only [if_pos replaced]
      have kept : ∀ other ∈ bldr.erase crprActive matched ++ [tag], other ∈ bldr.arrivalMap ∨ other = tag :=
        fun other there =>
        (List.mem_append.mp there).imp (fun old => List.mem_of_mem_eraseP old) List.mem_singleton.mp
      refine ⟨fun other there => ?_, fun other there kind => ?_, noFilter⟩
      · rcases kept other there with old | rfl
        · exact tags other old
        · exact filled
      · rcases kept other there with old | rfl
        · exact hasFilter other old kind
        · exact hasFilter matched mem (consistent.isFilter_tagMatch filled (tags matched mem) same kind)
    · simp only [if_neg replaced]
      exact ⟨tags, hasFilter, noFilter⟩
  | none =>
    rw [TagGroupBldr.setMatchArrival.eq_def]
    refine ⟨fun other there => ?_, fun other there kind => ?_, fun none => ?_⟩
    · rcases List.mem_append.mp there with old | new
      · exact tags other old
      · rw [List.mem_singleton.mp new]
        exact filled
    · rcases List.mem_append.mp there with old | new
      · simp [hasFilter other old kind]
      · rw [List.mem_singleton.mp new] at kind
        simp [kind]
    · have plain := consistent.not_isFilter none filled
      have refs : st.refsFilter tag.clkInfo = false := by
        apply Bool.eq_false_iff.mpr
        intro refs
        rw [consistent.refs _ _ filled refs] at plain
        cases plain
      simp [noFilter none,plain,refs]

theorem BldrConsistent.deleteArrival (bldrConsistent : BldrConsistent st bldr) (tag : Tag) :
    BldrConsistent st (bldr.deleteArrival crprActive tag) where
  tags other there := bldrConsistent.tags other (List.mem_of_mem_eraseP there)
  hasFilter other there := bldrConsistent.hasFilter other (List.mem_of_mem_eraseP there)
  noFilter := bldrConsistent.noFilter

theorem BldrConsistent.arrivalStep (bldrConsistent : BldrConsistent st bldr) (consistent : TagsConsistent st)
    (done : st.arrivalStep crprActive bldr arrival = some bldr') : BldrConsistent st bldr' := by
  cases arrival with
  | setArrival tagIndex =>
    obtain ⟨tag, filled, rfl⟩ := Option.map_eq_some_iff.mp done
    obtain rfl := consistent.index _ _ filled
    exact bldrConsistent.setArrival consistent filled
  | deleteArrival tagIndex =>
    obtain ⟨tag, -, rfl⟩ := Option.map_eq_some_iff.mp done
    exact bldrConsistent.deleteArrival tag

theorem BldrConsistent.arrivalSteps (bldrConsistent : BldrConsistent st bldr) (consistent : TagsConsistent st)
    (done : arrivals.foldlM (st.arrivalStep crprActive) bldr = some bldr') : BldrConsistent st bldr' := by
  induction arrivals generalizing bldr with
  | nil =>
    cases done
    exact bldrConsistent
  | cons arrival rest ih =>
    rw [List.foldlM_cons,Option.bind_eq_bind,Option.bind_eq_some_iff] at done
    obtain ⟨mid, first, later⟩ := done
    exact ih (bldrConsistent.arrivalStep consistent first) later

/-- A group that is found has the tags that were built; it is a group of the table. -/
theorem Consistent.findTagGroup (consistent : Consistent st) (bldrConsistent : BldrConsistent st bldr)
    (found : st.findTagGroup crprActive bldr = some (next, group)) :
    Consistent next ∧ next.tagGroups.entry group.index = some group := by
  rw [Search.findTagGroup] at found
  split at found
  · rename_i old
    cases found
    obtain ⟨⟨i, filled⟩, -⟩ := SlotTable.find?_spec old
    rw [consistent.groups.index i _ filled]
    exact ⟨consistent, filled⟩
  · simp only [Option.ite_none_left_eq_some,Option.some.injEq,Prod.mk.injEq] at found
    obtain ⟨-, rfl, rfl⟩ := found
    obtain ⟨tags, groups⟩ := consistent
    have entry := groups.valid.entry_put_iff (bldr.makeTagGroup st.tagGroups.index)
    refine ⟨⟨{ tags with }, ?_⟩, (entry _ _).mpr (Or.inl ⟨rfl, rfl⟩)⟩
    refine {
      valid := groups.valid.put _
      index := fun i other filled => ?_
      tags := fun i other filled => ?_
      hasFilter := fun i other filled => ?_
      noFilter := fun none i other filled => ?_
      vertices := fun vertex i there => (groups.vertices vertex i there).imp fun _ found =>
        ⟨(entry _ _).mpr (Or.inr found.1), found.2⟩ }
    all_goals rcases (entry other i).mp filled with ⟨rfl, rfl⟩ | old
    · rfl
    · exact groups.index i other old
    · exact bldrConsistent.tags
    · exact groups.tags i other old
    · exact bldrConsistent.hasFilter
    · exact groups.hasFilter i other old
    · exact bldrConsistent.noFilter none
    · exact groups.noFilter none i other old

theorem Consistent.deletePaths (consistent : Consistent st) (vertex : ℕ) : Consistent (st.deletePaths vertex) := by
  obtain ⟨tags, groups⟩ := consistent
  refine ⟨{ tags with }, { groups with vertices := fun other i there => ?_ }⟩
  simp only [Search.deletePaths] at there
  by_cases here : other = vertex
  · simp [here] at there
  · rw [Function.update_of_ne here] at there
    exact groups.vertices other i there

theorem Consistent.setVertexArrivals (consistent : Consistent st) (bldrConsistent : BldrConsistent st bldr)
    (done : st.setVertexArrivals crprActive vertex bldr = some next) : Consistent next := by
  rw [Search.setVertexArrivals] at done
  split at done
  · cases done
    exact consistent.deletePaths vertex
  · obtain ⟨⟨mid, group⟩, found, rfl⟩ := Option.map_eq_some_iff.mp done
    obtain ⟨⟨tags, groups⟩, filled⟩ := consistent.findTagGroup bldrConsistent found
    refine ⟨{ tags with }, { groups with vertices := fun other i there => ?_ }⟩
    have registered : ∀ v ∈ mid.filteredArrivals,
        v ∈ if group.hasFilterTag then insert vertex mid.filteredArrivals else mid.filteredArrivals := fun v mem => by
      split
      · exact Finset.mem_insert_of_mem mem
      · exact mem
    by_cases here : other = vertex
    · subst here
      simp only [Function.update_self,Option.some.injEq] at there
      subst there
      refine ⟨group, filled, fun filter => ?_⟩
      simp [filter]
    · simp only [Function.update_of_ne here] at there
      exact (groups.vertices other i there).imp fun _ found => ⟨found.1, fun filter => registered _ (found.2 filter)⟩

end Groups

section Delete
variable {st next : Search} {crprActive : Bool} {info : ClkInfo} {tag : Tag}

theorem refsFilter_eq_false (consistent : TagsConsistent st) (mem : info ∈ st.clkInfoSet)
    (stays : st.refsFilter info = false)
    (same : info.crprClkPath = some path) : ∃ tag, st.tags.entry path.tagIndex = some tag ∧ tag.id = path.tag ∧
    tag.isFilter = false := by
  obtain ⟨tag, filled, id⟩ := consistent.crpr info mem path same
  refine ⟨tag, filled, id, ?_⟩
  rw [refsFilter,same] at stays
  simpa [filled] using stays

theorem Consistent.deleteFilteredArrivals (consistent : Consistent st) : Consistent st.deleteFilteredArrivals := by
  rw [Search.deleteFilteredArrivals]
  by_cases none : st.filter = none
  · rw [if_pos none]
    exact consistent
  rw [if_neg none]
  obtain ⟨tags, groups⟩ := consistent
  have tagEntry := tags.valid.entry_deleteAll_iff (·.isFilter)
  have groupEntry := groups.valid.entry_deleteAll_iff (·.hasFilterTag)
  have infos : ∀ info, info ∈ st.clkInfoSet.filter (fun info => !st.refsFilter info) ↔ info ∈ st.clkInfoSet ∧
    st.refsFilter info = false :=
    fun info => by simp
  -- No tag that stays has a clock information that goes.
  have stays : ∀ i tag, st.tags.entry i = some tag → tag.isFilter = false → st.refsFilter tag.clkInfo = false :=
    fun i tag filled plain => by
    apply Bool.eq_false_iff.mpr
    intro refs
    rw [tags.refs i tag filled refs] at plain
    cases plain
  have plain : ∀ i tag, st.tags.entry i = some tag → tag.isFilter = false →
    ∀ state ∈ tag.states, state.exception.isFilter = false :=
    fun i tag filled plain state mem => by
      apply Bool.eq_false_iff.mpr
      intro kind
      rw [(tags.isFilter i tag filled).mpr ⟨state, mem, kind⟩] at plain
      cases plain
  constructor
  · refine {
      valid := tags.valid.deleteAll _
      index := fun i tag filled => tags.index i tag ((tagEntry tag i).mp filled).1
      clkInfo := fun i tag filled => ?_
      crpr := fun info mem path same => ?_
      filter := fun exception set => by cases set
      states := fun i tag filled state mem kind => ?_
      isFilter := fun i tag filled => tags.isFilter i tag ((tagEntry tag i).mp filled).1
      refs := fun i tag filled refs => ?_ }
    · obtain ⟨old, kept⟩ := (tagEntry tag i).mp filled
      exact (infos _).mpr ⟨tags.clkInfo i tag old, stays i tag old kept⟩
    · obtain ⟨old, kept⟩ := (infos info).mp mem
      obtain ⟨tag, filled, id, kept⟩ := refsFilter_eq_false tags old kept same
      exact ⟨tag, (tagEntry tag _).mpr ⟨filled, kept⟩, id⟩
    · obtain ⟨old, kept⟩ := (tagEntry tag i).mp filled
      have off := plain i tag old kept state mem
      rw [kind] at off
      cases off
    · obtain ⟨old, kept⟩ := (tagEntry tag i).mp filled
      simp only [refsFilter] at refs
      split at refs
      · cases refs
      · obtain ⟨other, filled', kind⟩ := (Option.any_eq_true _ _).mp refs
        have kept' := ((tagEntry other _).mp filled').2
        rw [kind] at kept'
        cases kept'
  · refine {
      valid := groups.valid.deleteAll _
      index := fun i group filled => groups.index i group ((groupEntry group i).mp filled).1
      tags := fun i group filled tag mem => ?_
      hasFilter := fun i group filled => groups.hasFilter i group ((groupEntry group i).mp filled).1
      noFilter := fun _ i group filled => ((groupEntry group i).mp filled).2
      vertices := fun vertex i there => ?_ }
    · obtain ⟨old, kept⟩ := (groupEntry group i).mp filled
      refine (tagEntry tag _).mpr ⟨groups.tags i group old tag mem, Bool.eq_false_iff.mpr fun kind => ?_⟩
      rw [groups.hasFilter i group old tag mem kind] at kept
      cases kept
    · by_cases registered : vertex ∈ st.filteredArrivals
      · simp [deleteFilterTags,deleteFilterClkInfos,deleteFilterTagGroups,registered] at there
      · simp only [deleteFilterTags,deleteFilterClkInfos,deleteFilterTagGroups,registered,if_false] at there
        obtain ⟨group, filled, filter⟩ := groups.vertices vertex i there
        have kept : group.hasFilterTag = false := Bool.eq_false_iff.mpr fun kind => registered (filter kind)
        exact ⟨group, (groupEntry group i).mpr ⟨filled, kept⟩, fun kind => by rw [kept] at kind; cases kind⟩

theorem Consistent.findFilteredArrivals (consistent : Consistent st) (none : st.filter = none) :
    Consistent st.findFilteredArrivals := by
  obtain ⟨tags, groups⟩ := consistent
  refine ⟨{ tags with filter := fun exception set => ?_, states := fun i tag filled state mem kind => ?_ },
    { groups with noFilter := fun set => ?_, vertices := fun vertex i there => ?_ }⟩
  · obtain rfl := Option.some.inj set
    rfl
  · have set := tags.states i tag filled state mem kind
    rw [none] at set
    cases set
  · cases set
  · obtain ⟨group, filled, -⟩ := groups.vertices vertex i there
    refine ⟨group, filled, fun kind => ?_⟩
    rw [groups.noFilter none i group filled] at kind
    cases kind

end Delete

section Run
variable (crprActive : Bool)

/-- A filtered search starts after the results of the last one are deleted, and a tag for a clock path that was filtered
carries a state of the filter. -/
def StepMeets (st : Search) : Step → Prop
  | .findFilteredArrivals => st.filter = none
  | .findTag _ clkInfo states => st.refsFilter clkInfo → ∃ state ∈ states, state.exception.isFilter
  | _ => True

/-- Every step of a run meets the condition in the state it is taken in. -/
def RunMeets (st : Search) : List Step → Prop
  | [] => True
  | action :: rest => StepMeets st action ∧ ∀ next, st.step crprActive action = some next → RunMeets next rest

variable {crprActive} {st next : Search}

theorem Consistent.step (consistent : Consistent st) (meets : StepMeets st action)
    (done : st.step crprActive action = some next) :
    Consistent next := by
  cases action with
  | findFilteredArrivals =>
    cases done
    exact consistent.findFilteredArrivals meets
  | deleteFilteredArrivals =>
    cases done
    exact consistent.deleteFilteredArrivals
  | findClkInfo attributes crprClkPath =>
    cases crprClkPath with
    | none =>
      cases done
      exact consistent.findClkInfo attributes none fun path set => by cases set
    | some path =>
      obtain ⟨rep, found, rfl⟩ := Option.map_eq_some_iff.mp done
      obtain ⟨tag, filled, rfl⟩ := Option.map_eq_some_iff.mp found
      refine consistent.findClkInfo attributes _ fun other set => ?_
      obtain rfl := Option.some.inj set
      exact ⟨tag, filled, rfl⟩
  | findTag attributes clkInfo states =>
    rw [Search.step,Option.ite_none_right_eq_some] at done
    obtain ⟨⟨mem, valid⟩, done⟩ := done
    obtain ⟨⟨_, tag⟩, found, rfl⟩ := Option.map_eq_some_iff.mp done
    exact consistent.findTag mem valid meets found
  | setVertexArrivals vertex arrivals =>
    rw [Search.step,Option.bind_eq_bind,Option.bind_eq_some_iff] at done
    obtain ⟨bldr, built, set⟩ := done
    exact consistent.setVertexArrivals ((bldrConsistent_init st).arrivalSteps consistent.tags built) set

theorem Consistent.run (consistent : Consistent st) (meets : RunMeets crprActive st steps)
    (done : st.run crprActive steps = some next) :
    Consistent next := by
  induction steps generalizing st with
  | nil =>
    cases done
    exact consistent
  | cons action rest ih =>
    rw [Search.run,List.foldlM_cons,Option.bind_eq_bind,Option.bind_eq_some_iff] at done
    obtain ⟨mid, first, later⟩ := done
    exact ih (consistent.step meets.1 first) (meets.2 mid first) later

/-- In every run whose steps meet the condition nothing refers to an object that is gone. -/
theorem run_nothingDangling (meets : RunMeets crprActive initial steps)
    (done : initial.run crprActive steps = some st) : NothingDangling st :=
  (consistent_initial.run meets done).nothingDangling

def clkAttributes : ClkAttributes := ⟨some 0, 0, some 0, none, none, 0, 0, true, false, none⟩

/-- A filter from a data pin: the tags after the pin carry its state. -/
def dataFilterSteps : List Step :=
  [.findFilteredArrivals,
    .findClkInfo clkAttributes none,
    .findTag ⟨0, 0, false, none, false⟩ ⟨1, clkAttributes, none⟩ {⟨.filter 0, none⟩},
    .setVertexArrivals 1 [.setArrival 0],
    .deleteFilteredArrivals]

theorem run_nothingDangling_data : ∃ st, initial.run false dataFilterSteps = some st ∧ NothingDangling st := by
  obtain ⟨st, done⟩ := Option.isSome_iff_exists.mp (show (initial.run false dataFilterSteps).isSome by decide +kernel)
  refine ⟨st, done, run_nothingDangling ?_ done⟩
  refine ⟨rfl, fun _ first => ?_⟩
  cases first
  refine ⟨trivial, fun _ second => ?_⟩
  cases second
  refine ⟨fun filtered => absurd filtered (by decide +kernel), fun _ third =>
    ⟨trivial, fun _ _ => ⟨trivial, fun _ _ => trivial⟩⟩⟩

/-- A filter through a pin of the clock network: the tag at the register's clock pin carries its state and has a clock
information with the filtered path, the tag at the register's output has the same clock information and no state. -/
def clockFilterSteps : List Step :=
  [.findFilteredArrivals,
    .findClkInfo clkAttributes none,
    .findTag ⟨0, 0, true, none, false⟩ ⟨1, clkAttributes, none⟩ {⟨.filter 0, none⟩},
    .setVertexArrivals 1 [.setArrival 0],
    .findClkInfo clkAttributes (some (1, 0)),
    .findTag ⟨0, 0, true, none, false⟩ ⟨3, clkAttributes, some ⟨1, 0, 2⟩⟩ {⟨.filter 0, none⟩},
    .setVertexArrivals 2 [.setArrival 1],
    .findTag ⟨0, 0, false, none, false⟩ ⟨3, clkAttributes, some ⟨1, 0, 2⟩⟩ ∅,
    .setVertexArrivals 3 [.setArrival 2],
    .deleteFilteredArrivals]

/-- The last tag stays and its clock information is deleted. -/
theorem not_nothingDangling_clock : ∃ st, initial.run true clockFilterSteps = some st ∧ ¬NothingDangling st := by
  have dangling : (initial.run true clockFilterSteps).map (fun st =>
      (st.tags.entry 2).map fun tag => decide (tag.clkInfo ∈ st.clkInfoSet)) = some (some false) := by decide +kernel
  obtain ⟨st, done, stays⟩ := Option.map_eq_some_iff.mp dangling
  obtain ⟨tag, filled, gone⟩ := Option.map_eq_some_iff.mp stays
  exact ⟨st, done, fun safe => absurd (safe.tags 2 tag filled) (of_decide_eq_false gone)⟩

end Run

end GTPower.Search
