import GTPower.LevelBounds

/-! Whether the levels order the graph after edits and searches: the search goes on from the vertices that were
announced, and raises the data pins of latches on its own. -/

namespace GTPower.Levelize

variable {V E P : Type*}

section Order
variable (design : Design V E P) (graph : Graph V E)

inductive Walk : V → List E → V → Prop
  | nil (u : V) : Walk u [] u
  | cons {u w : V} {e : E} {rest : List E} (out : e ∈ graph.outEdges u) (enabled : Enabled design e)
      (tail : Walk (design.toVertex e) rest w) : Walk u (e :: rest) w

/-- Enabled edges lead to higher levels, and every cycle of them is broken somewhere. -/
structure InOrder (s : Search V E) : Prop where
  rises : ∀ u, Below design graph s u
  broken : ∀ u cycle, Walk design graph u cycle u → cycle ≠ [] → ∃ e ∈ cycle, s.disabledLoop e = true

variable {design graph}

theorem Walk.level_le {s : Search V E} (below : ∀ u, Below design graph s u) {u w : V} {path : List E}
    (walk : Walk design graph u path w)
    (intact : ∀ e ∈ path, s.disabledLoop e = false) : s.level u + path.length ≤ s.level w := by
  induction walk with
  | nil => exact le_rfl
  | cons out enabled tail ih =>
    obtain ⟨here, later⟩ := List.forall_mem_cons.mp intact
    have step := below _ _ out enabled here
    have rest := ih later
    rw [List.length_cons]
    omega

theorem inOrder_of_below {s : Search V E} (below : ∀ u, Below design graph s u) : InOrder design graph s where
  rises := below
  broken u cycle walk nonempty := by
    by_contra none
    have intact : ∀ e ∈ cycle, s.disabledLoop e = false := fun e mem => Bool.eq_false_iff.mpr fun flag =>
      none ⟨e, mem, flag⟩
    have rise := walk.level_le below intact
    have positive := List.length_pos_iff.mpr nonempty
    omega

end Order

section Conditions
variable [LinearOrder V] [LinearOrder E] [LinearOrder P]

/-- Edges that were made since the last search start at vertices that the next one goes on from. -/
def Told (design : Design V E P) (st : State V E) : Event V E → Prop
  | .ensureLevelized => st.levelized = true → ∀ e ∈ st.made, e ∈ st.graph.outEdges (design.fromVertex e) →
    Enabled design e →
      st.levelsValid = false ∧ design.fromVertex e ∈ st.relevelizeFrom
  | _ => True

/-- A data pin that is raised was searched from, its level fits, and its enabled edges still lead to higher levels. -/
def RaisedInOrder (design : Design V E P) (levelSpace : ℕ) (st : State V E) (event : Event V E) : Prop :=
  AtRaises design levelSpace (fun _ e s =>
    s.color (design.fromVertex e) ≠ .white ∧ s.level (design.fromVertex e) + levelSpace < 2 ^ vertexLevelBits ∧
      ∀ other ∈ st.graph.outEdges (design.fromVertex e), Enabled design other → s.disabledLoop other = false →
        s.level (design.fromVertex e) + levelSpace < s.level (design.toVertex other)) st event

instance (design : Design V E P) (e : E) : Decidable (Enabled design e) :=
  inferInstanceAs (Decidable (design.searchFrom (design.fromVertex e) = true ∧ design.searchThru e = true ∧
    design.searchTo (design.toVertex e) = true))

instance (design : Design V E P) (st : State V E) (event : Event V E) : Decidable (Told design st event) :=
  match event with
  | .ensureLevelized => inferInstanceAs (Decidable (st.levelized = true →
    ∀ e ∈ st.made, e ∈ st.graph.outEdges (design.fromVertex e) →
      Enabled design e → st.levelsValid = false ∧ design.fromVertex e ∈ st.relevelizeFrom))
  | .makeVertex _ | .makeEdge _ | .deleteEdge _ | .deleteVertex _ _ _ | .invalidFrom _ | .relevelizeFrom _ | .invalid =>
    .isTrue trivial

instance (design : Design V E P) (levelSpace : ℕ) (st : State V E) (event : Event V E) :
    Decidable (RaisedInOrder design levelSpace st event) :=
  inferInstanceAs (Decidable (AtRaises design levelSpace (fun _ e s =>
    s.color (design.fromVertex e) ≠ .white ∧ s.level (design.fromVertex e) + levelSpace < 2 ^ vertexLevelBits ∧
      ∀ other ∈ st.graph.outEdges (design.fromVertex e), Enabled design other → s.disabledLoop other = false →
        s.level (design.fromVertex e) + levelSpace < s.level (design.toVertex other)) st event))

end Conditions

section Searches
variable {design : Design V E P} {graph : Graph V E} {levelSpace : ℕ} {s s' : Search V E}

/-- The vertices that are still to be searched from apart, all are below the ends of their edges. -/
def OrderedBut (design : Design V E P) (graph : Graph V E) (again : V → Prop) (s : Search V E) : Prop :=
  ∀ u, ¬again u → Below design graph s u

theorem OrderedBut.visited {again : V → Prop} {v : V} {level : ℕ} (ordered : OrderedBut design graph again s)
    (noGray : NoGray s')
    (visited : Visited design graph s s' v level) : OrderedBut design graph (fun u => again u ∧ u ≠ v) s' := by
  intro u apart
  cases color : s'.color u with
  | black => exact visited.ordered again (fun u _ apart => ordered u apart) u color apart
  | gray => exact absurd color (noGray u)
  | white =>
    obtain ⟨_, level⟩ := visited.grown.white u color
    have ne : u ≠ v := by
      rintro rfl
      rw [visited.black] at color
      cases color
    exact (ordered u fun still => apart ⟨still, ne⟩).mono level visited.grown.level_le visited.grown.disabled

variable [LinearOrder V]

structure Rested (s : Search V E) : Prop where
  noGray : NoGray s
  whiteLow : WhiteLow s
  short : ∀ u, s.level u < 2 ^ vertexLevelBits

theorem OrderedBut.lower {again : V → Prop} {v : V} (sound : graph.Sound design)
    (ordered : OrderedBut design graph again s)
    (root : isRoot s design graph v = true) : OrderedBut design graph again (setLevel s v 0) := by
  intro u apart e out enabled intact
  have rise := ordered u apart e out enabled intact
  have target : design.toVertex e ≠ v := by
    rintro rfl
    simp only [isRoot,Bool.and_eq_true,List.all_eq_true] at root
    have closed := root.1.2 e (sound.out u e out).2.1
    have flag : s.disabledLoop e = false := intact
    simp [enabled.1,thru,enabled.2.1,flag] at closed
  simp only [setLevel,if_neg target]
  split
  · exact Nat.lt_of_le_of_lt (Nat.zero_le _) rise
  · exact rise

variable [LinearOrder E] [LinearOrder P]

omit [LinearOrder E] in
theorem short_setLevel (short : ∀ u, s.level u < 2 ^ vertexLevelBits) (v : V) (level : ℕ) :
    ∀ u, (setLevel s v level).level u < 2 ^ vertexLevelBits := by
  intro u
  simp only [setLevel]
  split
  · exact Nat.mod_lt _ (Nat.two_pow_pos _)
  · exact short u

theorem keeps_short (design : Design V E P) (graph : Graph V E) :
    Keeps design graph (fun _ => True) fun s => ∀ u, s.level u < 2 ^ vertexLevelBits where
  edge _ _ _ _ _ _ _ := trivial
  drvr _ _ _ _ := trivial
  enter _ v level _ short := short_setLevel short v level
  leave _ _ _ short := short
  record _ _ _ short := short
  meet _ _ e _ _ _ short := by
    intro u
    rw [level_meetLatch]
    exact short u

/-- A vertex without an edge that the search follows, and not the driver of a bidirect port, is where no other visit
comes. -/
theorem keeps_level (sound : graph.Sound design) {r : V} (plain : design.bidirectDrvr r = false)
    (noEdge : ∀ e ∈ graph.inEdges r, ¬Enabled design e) (level : ℕ) :
    Keeps design graph (fun v => v ≠ r) fun s => s.level r = level where
  edge v e out _ searchFrom thru searchTo := by
    rintro rfl
    obtain ⟨source, into, _, _⟩ := sound.out v e out
    exact noEdge e into ⟨source ▸ searchFrom, thru, searchTo⟩
  drvr v d _ drives := by
    rintro rfl
    rw [design.drvr_isDrvr v d drives] at plain
    cases plain
  enter s v level' apart same := by rw [level_enterVertex,if_neg apart.symm]; exact same
  leave _ _ _ same := same
  record _ _ _ same := same
  meet _ _ e _ _ _ same := by rw [level_meetLatch]; exact same

theorem Rested.visited (sound : graph.Sound design) (space : 0 < levelSpace) (rested : Rested s) {v : V} {level : ℕ}
    (le : s.level v ≤ level) (fits : level < 2 ^ vertexLevelBits) {post : Search V E → Prop}
    (holds : ∀ s', Rested s' → Visited design graph s s' v level →
      visit design graph levelSpace (callDepth graph) v level [] s = .ok s' → post s') :
    Ends (visit design graph levelSpace (callDepth graph) v level [] s) post := by
  have ends : Ends (visit design graph levelSpace (callDepth graph) v level [] s) fun s' =>
      NoGray s' ∧ Visited design graph s s' v level ∧ (∀ u, s'.level u < 2 ^ vertexLevelBits) ∧
        visit design graph levelSpace (callDepth graph) v level [] s = .ok s' := by
    apply visit_ends sound rested.noGray
    intro s' run
    refine ⟨visit_spec sound space ⟨fun _ => rested.noGray v, le, fits⟩ rested.whiteLow run, ?_, run⟩
    exact (keeps_short design graph).visit trivial rested.short run
  apply ends.mono
  rintro s' ⟨noGray, visited, short, run⟩
  exact holds s' ⟨noGray, visited.grown.whiteLow rested.whiteLow, short⟩ visited run

omit [LinearOrder E] in
theorem Rested.lower (rested : Rested s) (v : V) : Rested (setLevel s v 0) where
  noGray := rested.noGray
  whiteLow u white := by
    simp only [setLevel]
    split
    · rfl
    · exact rested.whiteLow u white
  short := short_setLevel rested.short v 0

theorem Rested.relevelizeVertex (sound : graph.Sound design) {found : Search V E × List V} {again : V → Prop}
    (rested : Rested found.1) (ordered : OrderedBut design graph again found.1) (v : V) :
    Ends (relevelizeVertex design graph found v) fun found' =>
      Rested found'.1 ∧ OrderedBut design graph (fun u => again u ∧ u ≠ v) found'.1 := by
  unfold Levelize.relevelizeVertex
  split
  · by_cases root : isRoot found.1 design graph v
    · rw [if_pos root]
      have lowered := rested.lower v
      apply Ends.bind (lowered.visited sound Nat.one_pos le_rfl (lowered.short v) fun s' rested' visited _ =>
        (⟨rested', (ordered.lower sound root).visited rested'.noGray visited⟩ : Rested s' ∧ _))
      exact fun _ _ here => here
    · rw [if_neg root]
      apply Ends.bind (rested.visited sound Nat.one_pos le_rfl (rested.short v) fun s' rested' visited _ =>
        (⟨rested', ordered.visited rested'.noGray visited⟩ : Rested s' ∧ _))
      exact fun _ _ here => here
  · next stays =>
    refine ⟨rested, fun u apart => ?_⟩
    by_cases here : u = v
    · intro e out enabled _
      rw [← (sound.out u e out).1] at here
      exact absurd (here ▸ enabled.1) stays
    · exact ordered u fun still => apart ⟨still, here⟩

end Searches

section Passes
variable [LinearOrder V] [LinearOrder E] [LinearOrder P] {design : Design V E P} {levelSpace : ℕ} {st : State V E}
    {s : Search V E}

theorem Rested.relevelizeSearch (sound : st.graph.Sound design) (rested : Rested st.search)
    (ordered : OrderedBut design st.graph (· ∈ st.relevelizeFrom) st.search) :
    Ends (relevelizeSearch design st) fun found => Rested found.1 ∧ ∀ u, Below design st.graph found.1 u := by
  have start : Rested ({ st.search with met := [] }, st.roots).1 ∧
      OrderedBut design st.graph (fun u => u ∈ st.relevelizeFrom ∧ u ∉ ([] : List V)) ({ st.search with met := [] },
        st.roots).1 :=
    ⟨⟨rested.noGray, rested.whiteLow, rested.short⟩, fun u apart => ordered u fun mem => apart ⟨mem, List.not_mem_nil⟩⟩
  have keeps : ∀ done, ∀ v ∈ st.relevelizeFrom, ∀ found : Search V E × List V,
      (Rested found.1 ∧ OrderedBut design st.graph (fun u => u ∈ st.relevelizeFrom ∧ u ∉ done) found.1) →
        Ends (Levelize.relevelizeVertex design st.graph found v) fun found =>
          Rested found.1 ∧ OrderedBut design st.graph (fun u => u ∈ st.relevelizeFrom ∧ u ∉ done ++ [v]) found.1 := by
    rintro done v _ found ⟨rested, ordered⟩
    apply (rested.relevelizeVertex sound ordered v).mono
    rintro found' ⟨rested', ordered'⟩
    refine ⟨rested', fun u apart => ordered' u fun still => apart ⟨still.1.1, ?_⟩⟩
    simp [still.1.2,still.2]
  have ends : Ends (Levelize.relevelizeSearch design st) fun found =>
      Rested found.1 ∧ OrderedBut design st.graph (fun u => u ∈ st.relevelizeFrom ∧ u ∉ st.relevelizeFrom) found.1 :=
        Ends.foldlM keeps start
  exact ends.mono fun found here => ⟨here.1, fun u => here.2 u fun both => both.2 both.1⟩

omit [LinearOrder E] [LinearOrder P] in
theorem OrderedBut.raise {graph : Graph V E} {again : V → Prop} {d : V} (ordered : OrderedBut design graph again s)
    (fits : s.level d + levelSpace < 2 ^ vertexLevelBits)
    (above : ∀ e ∈ graph.outEdges d, Enabled design e → s.disabledLoop e = false →
      s.level d + levelSpace < s.level (design.toVertex e)) :
    OrderedBut design graph again (setLevel s d (s.level d + levelSpace)) := by
  intro u apart e out enabled intact
  have rise := ordered u apart e out enabled intact
  simp only [setLevel,Nat.mod_eq_of_lt fits]
  by_cases source : u = d
  · subst source
    have further := above e out enabled intact
    rw [if_pos rfl]
    split
    · next same =>
      rw [same] at rise
      exact absurd rise (lt_irrefl _)
    · exact further
  · rw [if_neg source]
    split
    · next same =>
      rw [same] at rise
      omega
    · exact rise

omit [LinearOrder E] in
theorem Rested.raise {d : V} (rested : Rested s) (reached : s.color d ≠ .white) (level : ℕ) :
    Rested (setLevel s d level) where
  noGray := rested.noGray
  whiteLow u white := by
    have ne : u ≠ d := by
      rintro rfl
      exact reached white
    simp only [setLevel,if_neg ne]
    exact rested.whiteLow u white
  short := short_setLevel rested.short d level

omit [LinearOrder P] [LinearOrder E] in
theorem OrderedBut.ensureLatchLevels {again : V → Prop} (rested : Rested s)
    (ordered : OrderedBut design st.graph again s)
    (raises : EachRaise design levelSpace (fun _ e s =>
      s.color (design.fromVertex e) ≠ .white ∧ s.level (design.fromVertex e) + levelSpace < 2 ^ vertexLevelBits ∧
        ∀ other ∈ st.graph.outEdges (design.fromVertex e), Enabled design other → s.disabledLoop other = false →
          s.level (design.fromVertex e) + levelSpace < s.level (design.toVertex other)) [] s.latchEdges s) :
    Rested (ensureLatchLevels design levelSpace s) ∧
    OrderedBut design st.graph again (ensureLatchLevels design levelSpace s) := by
  have kept := raises.keeps (fun _ s => Rested s ∧ OrderedBut design st.graph again s) (fun _ _ _ here _ => here)
    (fun _ e s here _ holds => ⟨here.1.raise holds.1 _, here.2.raise holds.2.1 holds.2.2⟩) ⟨rested, ordered⟩
  exact ⟨⟨kept.1.noGray, kept.1.whiteLow, kept.1.short⟩, kept.2⟩

/-- The roots of the search: no edge that is followed ends in them, and no bidirect load comes before them. -/
def Root (design : Design V E P) (graph : Graph V E) (r : V) : Prop :=
  design.bidirectDrvr r = false ∧ ∀ e ∈ graph.inEdges r, ¬Enabled design e

omit [LinearOrder V] [LinearOrder E] [LinearOrder P] in
theorem root_of_isRoot {graph : Graph V E} {r : V} (intact : s.disabledLoop = fun _ => false)
    (root : isRoot s design graph r = true) : Root design graph r := by
  simp only [isRoot,Bool.and_eq_true,List.all_eq_true,Bool.not_eq_true'] at root
  refine ⟨?_, fun e into enabled => ?_⟩
  · cases drives : design.bidirectDrvr r with
    | false => rfl
    | true =>
      rw [design.drvr_slew r drives] at root
      exact absurd root.2 (by decide)
  · have closed := root.1.2 e into
    simp [enabled.1,thru,enabled.2.1,intact] at closed

theorem Root.visit_level {graph : Graph V E} {r v : V} (sound : graph.Sound design) (root : Root design graph r)
    (zero : s.level r = 0) {s' : Search V E} (visited : Visited design graph s s' v 0)
    (run : visit design graph levelSpace (callDepth graph) v 0 [] s = .ok s') : s'.level r = 0 := by
  by_cases same : v = r
  · subst same
    exact visited.exact root.1
  · exact (keeps_level sound root.1 root.2 0).visit same zero run

omit [LinearOrder V] [LinearOrder E] in
theorem mem_sortVertices {vertices : List V} {v : V} : v ∈ sortVertices design vertices ↔ v ∈ vertices := by
  unfold sortVertices
  exact List.mem_insertionSort _

/-- While the roots are visited: those that were visited are in order, and all are at level 0. -/
structure FromRoots (design : Design V E P) (graph : Graph V E) (roots done : List V) (s : Search V E) : Prop where
  rested : Rested s
  zero : ∀ r ∈ roots, s.level r = 0
  ordered : Ordered design graph (fun u => u ∈ roots ∧ u ∉ done) s

theorem FromRoots.visit {roots done : List V} {v : V} (sound : st.graph.Sound design) (space : 0 < levelSpace)
    (isRoots : ∀ r ∈ roots, Root design st.graph r) (fromRoots : FromRoots design st.graph roots done s)
    (mem : v ∈ roots) :
    Ends (visit design st.graph levelSpace (callDepth st.graph) v 0 [] s)
    (FromRoots design st.graph roots (done ++ [v])) := by
  apply fromRoots.rested.visited sound space (fromRoots.zero v mem).le (Nat.two_pow_pos _)
  intro s' rested visited run
  refine ⟨rested, fun r mem => (isRoots r mem).visit_level sound (fromRoots.zero r mem) visited run, ?_⟩
  apply (visited.ordered _ fromRoots.ordered).mono
  rintro u ⟨⟨inside, new⟩, ne⟩
  exact ⟨inside, by simp [new,ne]⟩

omit [LinearOrder V] [LinearOrder E] in
theorem deleteLoops_same (s : Search V E) :
    (deleteLoops s).level = s.level ∧ (deleteLoops s).color = s.color ∧
    (deleteLoops s).disabledLoop = s.disabledLoop := by
  unfold deleteLoops
  split <;> exact ⟨rfl, rfl, rfl⟩

omit [LinearOrder E] [LinearOrder P] in
/-- All vertices start at level 0, and those that are not roots are to be reached. -/
theorem fromRoots_start (sound : st.graph.Sound design) (rested : Rested st.search) (noRoots : st.roots = []) :
    let start := { deleteLoops (clearLoopEdges st.search) with maxLevel := 0, loops := true, met := [] }
    let found := findRoots design st.graph start st.roots
    (∀ r ∈ found.2, Root design st.graph r) ∧ FromRoots design st.graph found.2 [] found.1 := by
  intro start found
  have cleared : start.level = st.search.level ∧ start.color = st.search.color ∧ start.disabledLoop = fun _ => false :=
    deleteLoops_same (clearLoopEdges st.search)
  have spec : RootsFound design st.graph st.graph.vertices start st.roots found :=
    rootsFound design st.graph st.graph.vertices start st.roots
  have isRoot_of_mem : ∀ r ∈ found.2, r ∈ st.graph.vertices ∧ isRoot start design st.graph r = true := by
    intro r mem
    rcases (spec.roots r).mp mem with old | new
    · rw [noRoots] at old
      exact absurd old List.not_mem_nil
    · exact new
  refine ⟨fun r mem => root_of_isRoot cleared.2.2 (isRoot_of_mem r mem).2, ⟨?_, fun u white => ?_, fun u => ?_⟩, ?_,
    fun u black apart => ?_⟩
  · apply spec.noGray
    intro u
    rw [cleared.2.1]
    exact rested.noGray u
  · by_cases inside : u ∈ st.graph.vertices
    · exact spec.zero u inside
    · rw [spec.level u inside,cleared.1]
      rw [spec.color u inside,cleared.2.1] at white
      exact rested.whiteLow u white
  · by_cases inside : u ∈ st.graph.vertices
    · rw [spec.zero u inside]
      exact Nat.two_pow_pos _
    · rw [spec.level u inside,cleared.1]
      exact rested.short u
  · exact fun r mem => spec.zero r (isRoot_of_mem r mem).1
  · intro e out
    obtain ⟨_, _, inside, _⟩ := sound.out u e out
    by_cases root : isRoot start design st.graph u = true
    · exact absurd ⟨(spec.roots u).mpr (Or.inr ⟨inside, root⟩), List.not_mem_nil⟩ apart
    · rw [spec.white u inside root] at black
      cases black

theorem Rested.levelizeRoots (sound : st.graph.Sound design) (space : 0 < levelSpace) (rested : Rested st.search)
    (noRoots : st.roots = []) :
    Ends (levelizeRoots design levelSpace st) fun found => Rested found.1 ∧
    Ordered design st.graph (fun _ => False) found.1 := by
  obtain ⟨isRoots, start⟩ := fromRoots_start sound rested noRoots
  have ends := Ends.foldlM (l := sortVertices design (findRoots design st.graph
      { deleteLoops (clearLoopEdges st.search) with maxLevel := 0, loops := true, met := [] } st.roots).2)
    (fun done v mem s here => FromRoots.visit sound space isRoots here (mem_sortVertices.mp mem)) start
  apply Ends.bind ends
  rintro s _ fromRoots
  refine ⟨fromRoots.rested, fromRoots.ordered.mono fun u still => ?_⟩
  exact still.2 (mem_sortVertices.mpr still.1)

/-- The vertices that no root leads to are searched from until none is left white that could be. -/
theorem Rested.levelizeCycles (sound : st.graph.Sound design) (space : 0 < levelSpace) (rested : Rested s)
    (ordered : Ordered design st.graph (fun _ => False) s) (roots : List V) :
    Ends (levelizeCycles design st.graph levelSpace s roots) fun found => Rested found.1 ∧
    ∀ u, Below design st.graph found.1 u := by
  let todo := sortVertices design (uncolored design st.graph s)
  let inv (done : List V) (found : Search V E × List V) : Prop := Rested found.1 ∧
    Ordered design st.graph (fun _ => False) found.1 ∧
    (∀ u, found.1.color u = .white → s.color u = .white) ∧ ∀ u ∈ done, found.1.color u ≠ .white
  have keeps : ∀ done, ∀ v ∈ todo, ∀ found, inv done found →
    Ends (levelizeCycle design st.graph levelSpace found v) (inv (done ++ [v])) := by
    rintro done v _ found ⟨rested, ordered, white, reached⟩
    unfold levelizeCycle
    split
    · next isWhite =>
      apply Ends.bind (rested.visited sound space (rested.whiteLow v isWhite).le (Nat.two_pow_pos _) fun s' rested'
        visited _ =>
        (⟨rested', visited⟩ : Rested s' ∧ Visited design st.graph found.1 s' v 0))
      rintro s' _ ⟨rested', visited⟩
      refine ⟨rested', (visited.ordered _ ordered).mono fun u still => still.1, fun u white' =>
        white u (visited.grown.white u white').1,
        fun u mem white' => ?_⟩
      rcases List.mem_append.mp mem with before | here
      · exact reached u before (visited.grown.white u white').1
      · rw [List.mem_singleton.mp here,visited.black] at white'
        cases white'
    · next notWhite =>
      refine ⟨rested, ordered, white, fun u mem => ?_⟩
      rcases List.mem_append.mp mem with before | here
      · exact reached u before
      · rw [List.mem_singleton.mp here]
        exact notWhite
  have start : inv [] (s, roots) := ⟨rested, ordered, fun _ => id, fun _ mem => absurd mem List.not_mem_nil⟩
  apply (Ends.foldlM keeps start).mono
  rintro found ⟨rested', ordered', white, reached⟩
  refine ⟨rested', fun u => ?_⟩
  cases color : found.1.color u with
  | black => exact ordered' u color id
  | gray => exact absurd color (rested'.noGray u)
  | white =>
    intro e out enabled _
    obtain ⟨source, _, inside, _⟩ := sound.out u e out
    have left : u ∈ todo := mem_sortVertices.mpr
      (List.mem_filter.mpr ⟨inside, decide_eq_true ⟨white u color, source ▸ enabled.1⟩⟩)
    exact absurd color (reached u left)

end Passes

section Runs
variable {design : Design V E P} {levelSpace : ℕ} {st : State V E} {skip : V → Prop}

/-- What holds between the calls: edges that were not announced and are not new lead to higher levels, as far as they
were searched. -/
structure Kept (design : Design V E P) (skip : V → Prop) (st : State V E) : Prop where
  sound : st.graph.Sound design
  rested : Rested st.search
  noRoots : st.levelized = false → st.roots = []
  levelized : st.levelsValid = true → st.levelized = true
  rises : st.levelized = true → ∀ u, ¬skip u → (st.levelsValid = false → u ∉ st.relevelizeFrom) →
    ∀ e ∈ st.graph.outEdges u, e ∉ st.made →
    Enabled design e → st.search.disabledLoop e = false → st.search.level u < st.search.level (design.toVertex e)

theorem Kept.of_below {graph : Graph V E} {roots from' : List V} (sound : graph.Sound design) (rested : Rested s)
    (below : ∀ u, Below design graph s u) : Kept design skip ⟨graph, s, roots, from', true, true, []⟩ where
  sound := sound
  rested := rested
  noRoots levelized := Bool.noConfusion levelized
  levelized _ := rfl
  rises _ u _ _ e out _ enabled intact := below u e out enabled intact

/-- When the levels were valid, edges that were made since are not among those of the search. -/
theorem Kept.below_of_valid (kept : Kept design (fun _ => False) st) (valid : st.levelsValid = true)
    (told : Told design st .ensureLevelized) (u : V) : Below design st.graph st.search u := by
  have levelized := kept.levelized valid
  intro e out enabled intact
  apply kept.rises levelized u id (fun stale => ?_) e out (fun new => ?_) enabled intact
  · rw [valid] at stale
    cases stale
  · obtain ⟨source, _⟩ := kept.sound.out u e out
    have stale := (told levelized e new (source ▸ out) enabled).1
    rw [valid] at stale
    cases stale

/-- When the levels were levelized before, what is not to be searched from is in order. -/
theorem Kept.orderedBut (kept : Kept design (fun _ => False) st) (told : Told design st .ensureLevelized)
    (levelized : st.levelized = true) :
    OrderedBut design st.graph (· ∈ st.relevelizeFrom) st.search := by
  intro u apart e out enabled intact
  apply kept.rises levelized u id (fun _ => apart) e out (fun new => ?_) enabled intact
  obtain ⟨source, _⟩ := kept.sound.out u e out
  exact apart (source ▸ (told levelized e new (source ▸ out) enabled).2)

theorem kept_initial (design : Design V E P) : Kept design (fun _ => False) (initial : State V E) where
  sound := ⟨by simp [initial], by simp [initial]⟩
  rested := ⟨by simp [NoGray,initial], by simp [WhiteLow,initial], fun _ => Nat.two_pow_pos _⟩
  noRoots _ := rfl
  levelized valid := Bool.noConfusion valid
  rises levelized := Bool.noConfusion levelized

variable [LinearOrder V]

omit [LinearOrder V] in
theorem Rested.deleteLoops {s : Search V E} (rested : Rested s) : Rested (deleteLoops s) := by
  obtain ⟨level, color, _⟩ := deleteLoops_same s
  refine ⟨noGray_deleteLoops rested.noGray, fun u white => ?_, fun u => level ▸ rested.short u⟩
  rw [level]
  exact rested.whiteLow u (color ▸ white)

theorem Kept.relevelizeFromVertex (kept : Kept design skip st) (v : V) :
    Kept design skip (relevelizeFromVertex v st) where
  sound := kept.sound
  rested := kept.rested
  noRoots := kept.noRoots
  levelized valid := Bool.noConfusion valid
  rises levelized u apart fresh e out :=
    kept.rises levelized u apart (fun _ mem => fresh rfl (mem_insertVertex.mpr (Or.inr mem))) e out

theorem Kept.invalidFrom (kept : Kept design skip st) (v : V) : Kept design skip (invalidFrom design v st) where
  sound := kept.sound
  rested := kept.rested
  noRoots := kept.noRoots
  levelized valid := Bool.noConfusion valid
  rises levelized u apart fresh e out := by
    refine kept.rises levelized u apart (fun _ mem => fresh rfl (mem_insertVertex.mpr (Or.inr ?_))) e out
    exact List.foldlRecOn (motive := fun set => u ∈ set) _ _ mem fun set inside other _ =>
      mem_insertVertex.mpr (Or.inr inside)

theorem Kept.deleteVertexBefore (kept : Kept design (fun _ => False) st) (v : V) :
    Kept design (· = v) (deleteVertexBefore v st) where
  sound := kept.sound
  rested := kept.rested
  noRoots levelized := by
    have none := kept.noRoots levelized
    simp [Levelize.deleteVertexBefore,none,eraseVertex]
  levelized := kept.levelized
  rises levelized u apart fresh e out :=
    kept.rises levelized u id (fun valid mem => fresh valid (mem_eraseVertex.mpr ⟨mem, apart⟩)) e out

variable [LinearOrder E]

omit [LinearOrder E] in
theorem Kept.makeVertex (kept : Kept design skip st) {v : V} (new : v ∉ st.graph.vertices) :
    Kept design skip (makeVertex v st) where
  sound := kept.sound.makeVertex v
  rested := {
    noGray := noGray_setColor (s := setLevel st.search v 0) kept.rested.noGray v (by decide)
    whiteLow := by
      intro u white
      simp only [Levelize.makeVertex,level_setColor,setLevel]
      split
      · rfl
      · next ne => exact kept.rested.whiteLow u (by simpa [Levelize.makeVertex,setColor,setLevel,ne] using white)
    short := short_setLevel kept.rested.short v 0 }
  noRoots := kept.noRoots
  levelized := kept.levelized
  rises levelized u apart fresh e out old enabled intact := by
    obtain ⟨_, _, source, target⟩ := kept.sound.out u e out
    have ne : u ≠ v := fun same => new (same ▸ source)
    have ne' : design.toVertex e ≠ v := fun same => new (same ▸ target)
    simp only [Levelize.makeVertex,level_setColor,setLevel,if_neg ne,if_neg ne']
    exact kept.rises levelized u apart fresh e out old enabled intact

omit [LinearOrder E] [LinearOrder V] in
theorem Kept.invalid (kept : Kept design skip st) : Kept design skip (invalid st) where
  sound := kept.sound
  rested := Rested.deleteLoops ⟨kept.rested.noGray, kept.rested.whiteLow, kept.rested.short⟩
  noRoots _ := rfl
  levelized valid := Bool.noConfusion valid
  rises levelized := Bool.noConfusion levelized

theorem Kept.makeEdge (kept : Kept design skip st) {e : E} (source : design.fromVertex e ∈ st.graph.vertices)
    (target : design.toVertex e ∈ st.graph.vertices) : Kept design skip (makeEdge design e st) where
  sound := kept.sound.makeEdge source target
  rested := ⟨kept.rested.noGray, kept.rested.whiteLow, kept.rested.short⟩
  noRoots := kept.noRoots
  levelized := kept.levelized
  rises levelized u apart fresh other out old enabled intact := by
    obtain ⟨ne, old⟩ := not_or.mp (fun mem => old (List.mem_cons.mpr mem))
    simp only [Levelize.makeEdge,if_neg ne] at intact
    refine kept.rises levelized u apart fresh other ?_ old enabled intact
    exact (mem_outEdges_makeEdge.mp out).resolve_left fun isNew => ne isNew.2

omit [LinearOrder V] in
theorem Kept.deleteEdgeBefore (kept : Kept design skip st) (e : E) : Kept design skip (deleteEdgeBefore e st) := by
  unfold Levelize.deleteEdgeBefore
  split
  · exact kept.invalid
  · exact kept

theorem Kept.deleteEdge (kept : Kept design skip st) (e : E) : Kept design skip (deleteEdge design e st) := by
  have before := (kept.relevelizeFromVertex (design.toVertex e)).deleteEdgeBefore e
  exact ⟨before.sound.deleteEdge e, before.rested, before.noRoots, before.levelized,
    fun levelized u apart fresh other out =>
    before.rises levelized u apart fresh other ((mem_outEdges_deleteEdge before.sound).mp out).1⟩

theorem Kept.deleteVertex (kept : Kept design (fun _ => False) st) (v : V) (kind : PinKind) (wire : E → Bool) :
    Kept design (fun _ => False) (deleteVertex design v kind wire st) := by
  have edge : ∀ (st : State V E) (e : E), Kept design (· = v) st →
    Kept design (· = v) (Levelize.deleteEdgeBefore e st) :=
    fun st e here => here.deleteEdgeBefore e
  have later : ∀ (st : State V E) (u : V), Kept design (· = v) st →
    Kept design (· = v) (Levelize.relevelizeFromVertex u st) :=
    fun st u here => here.relevelizeFromVertex u
  obtain ⟨st', before, same⟩ := deleteVertex_told design kind wire edge later (kept.deleteVertexBefore v)
  rw [same]
  obtain ⟨sound, out_of, _⟩ := before.sound.deleteVertex v
  refine ⟨sound, before.rested, before.noRoots, before.levelized, fun levelized u _ fresh e out => ?_⟩
  refine before.rises levelized u ?_ fresh e (out_of u e out)
  intro same
  obtain ⟨_, _, inside, _⟩ := sound.out u e out
  have apart := (List.mem_filter.1 inside).2
  simp [same] at apart

variable [LinearOrder P]

/-- The search that brings the levels up to date, whichever it is, leaves the graph in order. -/
theorem Kept.ensureLevelized (space : 0 < levelSpace) (kept : Kept design (fun _ => False) st)
    (told : Told design st .ensureLevelized) (raises : RaisedInOrder design levelSpace st .ensureLevelized) :
    Ends (ensureLevelized design levelSpace st) fun st' => Kept design (fun _ => False) st' ∧
    InOrder design st'.graph st'.search := by
  unfold Levelize.ensureLevelized
  cases valid : st.levelsValid with
  | true => exact ⟨kept, inOrder_of_below (kept.below_of_valid valid told)⟩
  | false =>
    have raises := raises valid
    unfold searched at raises
    cases levelized : st.levelized with
    | true =>
      rw [levelized] at raises
      apply (kept.rested.relevelizeSearch kept.sound (kept.orderedBut told levelized)).bind
      rintro found run ⟨rested, below⟩
      have start : OrderedBut design st.graph (fun _ => False) found.1 := fun u _ => below u
      obtain ⟨rested', ordered⟩ := start.ensureLatchLevels rested (raises found run)
      have below' : ∀ u, Below design st.graph (ensureLatchLevels design levelSpace found.1) u := fun u => ordered u id
      refine ⟨⟨kept.sound, rested', ?_, ?_, ?_⟩, inOrder_of_below below'⟩
      · exact fun unset => absurd (levelized.symm.trans unset) (by decide)
      · exact fun _ => levelized
      · exact fun _ u _ _ e out _ enabled intact => below' u e out enabled intact
    | false =>
      rw [levelized] at raises
      apply (kept.rested.levelizeRoots kept.sound space (kept.noRoots levelized)).bind
      rintro found run ⟨rested, ordered⟩
      -- The vertices that no root led to are not in order yet.
      have start : OrderedBut design st.graph (fun u => found.1.color u ≠ .black) found.1 :=
        fun u apart => ordered u (not_not.mp apart) id
      obtain ⟨rested', ordered'⟩ := start.ensureLatchLevels rested (raises found run)
      have black : Ordered design st.graph (fun _ => False) (ensureLatchLevels design levelSpace found.1) := by
        intro u color _
        rw [color_ensureLatchLevels] at color
        exact ordered' u (not_not.mpr color)
      apply (rested'.levelizeCycles kept.sound space black found.2).bind
      rintro found' _ ⟨rested'', below⟩
      exact ⟨.of_below kept.sound rested'' below, inOrder_of_below below⟩

theorem Kept.step (space : 0 < levelSpace) (kept : Kept design (fun _ => False) st) {event : Event V E}
    (valid : Valid design st event) (told : Told design st event) (raises : RaisedInOrder design levelSpace st event) :
    Ends (step design levelSpace st event) (Kept design fun _ => False) := by
  cases event with
  | makeVertex v => exact kept.makeVertex valid
  | makeEdge e => exact kept.makeEdge valid.1 valid.2
  | deleteEdge e => exact kept.deleteEdge e
  | deleteVertex v kind wire => exact kept.deleteVertex v kind wire
  | invalidFrom v => exact kept.invalidFrom v
  | relevelizeFrom v => exact kept.relevelizeFromVertex v
  | invalid => exact kept.invalid
  | ensureLevelized => exact (kept.ensureLevelized space told raises).mono fun st' here => here.1

/-- Whatever was edited and searched before, the levels that are brought up to date order the graph, as long as new
edges are announced and the data pins of latches are raised to levels below those that they lead to. -/
theorem levels_ordered (design : Design V E P) (levelSpace : ℕ) (space : 0 < levelSpace) (events : List (Event V E))
    (meets : Along design levelSpace (fun st event => Valid design st event ∧ Told design st event ∧
      RaisedInOrder design levelSpace st event) initial (events ++ [.ensureLevelized])) :
    Ends (run design levelSpace initial (events ++ [.ensureLevelized])) fun st =>
    InOrder design st.graph st.search := by
  have keeps : ∀ (st : State V E) (event : Event V E), Kept design (fun _ => False) st →
      (Valid design st event ∧ Told design st event ∧ RaisedInOrder design levelSpace st event) →
      Ends (Levelize.step design levelSpace st event) (Kept design fun _ => False) :=
    fun st event kept meets => kept.step space meets.1 meets.2.1 meets.2.2
  apply meets.ends_last keeps ?_ (kept_initial design)
  intro st kept meets
  exact (kept.ensureLevelized space meets.2.1 meets.2.2).mono fun st' here => here.2

/-- An edge that was announced at both ends, a second search, and a deleted vertex. -/
def edited : List (Event ℕ ℕ) :=
  made 8 5 ++ [.ensureLevelized, .makeEdge 5, .invalidFrom 6, .ensureLevelized, .deleteVertex 1 .load fun _ => true]

theorem levels_ordered_latch :
    Along latch 10 (fun st event => Valid latch st event ∧ Told latch st event ∧
    RaisedInOrder latch 10 st event) initial
      (edited ++ [.ensureLevelized]) ∧
    Ends (run latch 10 initial (edited ++ [.ensureLevelized])) fun st => InOrder latch st.graph st.search := by
  have meets : Along latch 10 (fun st event => Valid latch st event ∧ Told latch st event ∧
    RaisedInOrder latch 10 st event) initial
      (edited ++ [.ensureLevelized]) := by decide +kernel
  have ordered := levels_ordered latch 10 (by decide)
  exact ⟨meets, ordered edited meets⟩

end Runs

end GTPower.Levelize
