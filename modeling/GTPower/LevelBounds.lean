import GTPower.LevelRuns

/-! Whether the queues of a search have an entry for every level. The highest level is noted where a vertex is visited,
not where the data pin of a latch is set apart from the output. -/

namespace GTPower.Levelize

variable {V E P : Type*} [LinearOrder V] [LinearOrder E] [LinearOrder P]

/-- The queue grows to the highest level, if there are levels. -/
def ensureSize (st : State V E) (size : ℕ) : ℕ := if st.levelized then max size (st.search.maxLevel + 1) else size

/-- No level is above the highest one, and after `ensureSize` the queue has an entry for that of every vertex. -/
structure Bounded (st : State V E) : Prop where
  within : ∀ v ∈ st.graph.vertices, st.search.level v ≤ st.search.maxLevel
  queued : st.levelized → ∀ size, ∀ v ∈ st.graph.vertices, st.search.level v < ensureSize st size

/-- The data pin of a latch is raised to no more than the highest level. -/
def RaisedWithin (design : Design V E P) (levelSpace : ℕ) (st : State V E) (event : Event V E) : Prop :=
  AtRaises design levelSpace (fun _ e s => s.level (design.fromVertex e) + levelSpace ≤ s.maxLevel) st event

instance (design : Design V E P) (levelSpace : ℕ) (st : State V E) (event : Event V E) :
    Decidable (RaisedWithin design levelSpace st event) :=
  inferInstanceAs (Decidable (AtRaises design levelSpace (fun _ e s => s.level (design.fromVertex e) + levelSpace ≤
    s.maxLevel) st event))

section Within

variable {design : Design V E P} {levelSpace : ℕ} {st : State V E} {vertices : List V} {s : Search V E}

def Within (vertices : List V) (s : Search V E) : Prop := ∀ v ∈ vertices, s.level v ≤ s.maxLevel

omit [LinearOrder E] in
theorem Within.setLevel (within : Within vertices s) {v : V} {level : ℕ} (le : level ≤ s.maxLevel) :
    Within vertices (setLevel s v level) := by
  intro u mem
  simp only [Levelize.setLevel]
  split
  · exact (Nat.mod_le _ _).trans le
  · exact within u mem

omit [LinearOrder V] [LinearOrder E] in
theorem Within.bounded (within : Within st.graph.vertices st.search) : Bounded st where
  within := within
  queued levelized size v mem := by
    have le := within v mem
    rw [ensureSize,if_pos levelized]
    omega

theorem keeps_within (design : Design V E P) (graph : Graph V E) (vertices : List V) :
    Keeps design graph (fun _ => True) (Within vertices) where
  edge _ _ _ _ _ _ _ := trivial
  drvr _ _ _ _ := trivial
  enter s v level _ within u mem := by
    have mono : Within vertices { setColor s v .gray with maxLevel := max level s.maxLevel } :=
      fun u mem => (within u mem).trans (le_max_right _ _)
    exact mono.setLevel (le_max_left _ _) u mem
  leave s v _ within := within
  record s e path within := within
  meet s v e _ _ _ within := by
    unfold meetLatch
    split
    · exact within
    · exact within

omit [LinearOrder P] [LinearOrder E] in
theorem within_ensureLatchLevels (within : Within vertices s)
    (raises : EachRaise design levelSpace (fun _ e s => s.level (design.fromVertex e) + levelSpace ≤ s.maxLevel) []
      s.latchEdges s) :
    Within vertices (ensureLatchLevels design levelSpace s) := by
  exact raises.keeps (fun _ => Within vertices) (fun _ _ _ here _ => here) (fun _ _ _ here _ le =>
    here.setLevel le) within

end Within

section Runs

variable {design : Design V E P} {levelSpace : ℕ} {st : State V E}

structure Levelled (design : Design V E P) (st : State V E) : Prop where
  sound : st.graph.Sound design
  noGray : NoGray st.search
  within : Within st.graph.vertices st.search

omit [LinearOrder V] [LinearOrder E] in
theorem within_deleteLoops {vertices : List V} {s : Search V E} (within : Within vertices s) :
    Within vertices (deleteLoops s) := by
  unfold deleteLoops
  split <;> exact within

theorem Levelled.levelizeRoots (levelled : Levelled design st) :
    Ends (levelizeRoots design levelSpace st) fun found => NoGray found.1 ∧ Within st.graph.vertices found.1 := by
  let start := { deleteLoops (clearLoopEdges st.search) with maxLevel := 0, loops := true, met := [] }
  have found := rootsFound design st.graph st.graph.vertices start st.roots
  have none : NoGray start := noGray_deleteLoops levelled.noGray
  have within : Within st.graph.vertices (st.graph.vertices.foldl (findRoot design st.graph) (start, st.roots)).1 :=
    fun v mem => by
    rw [found.zero v mem]
    exact Nat.zero_le _
  exact (levelizeFrom_ends levelled.sound (keeps_within design _ _) (found.noGray none) within).bind fun _ _ ends =>
    ends

theorem Levelled.relevelizeSearch (levelled : Levelled design st) :
    Ends (relevelizeSearch design st) fun found => NoGray found.1 ∧ Within st.graph.vertices found.1 := by
  have start : NoGray { st.search with met := [] } ∧ Within st.graph.vertices { st.search with met := [] } :=
    ⟨levelled.noGray, levelled.within⟩
  refine Ends.foldlM_inv (fun v _ found here => ?_) start
  exact relevelizeVertex_ends levelled.sound (keeps_within design _ _) (fun s v within =>
    within.setLevel (Nat.zero_le _)) here.1 here.2 v

omit [LinearOrder E] [LinearOrder P] in
theorem noGray_ensureLatchLevels {s : Search V E} (none : NoGray s) :
    NoGray (ensureLatchLevels design levelSpace s) := by
  intro u
  rw [color_ensureLatchLevels]
  exact none u

theorem Levelled.ensureLevelized (levelled : Levelled design st)
    (raises : RaisedWithin design levelSpace st .ensureLevelized) :
    Ends (ensureLevelized design levelSpace st) (Levelled design) := by
  unfold Levelize.ensureLevelized
  cases valid : st.levelsValid with
  | true => exact levelled
  | false =>
    have raises := raises valid
    unfold searched at raises
    cases done : st.levelized with
    | true =>
      refine levelled.relevelizeSearch.bind fun found run ends => ?_
      rw [done] at raises
      have within := within_ensureLatchLevels ends.2 (raises found run)
      exact ⟨levelled.sound, noGray_ensureLatchLevels ends.1, within⟩
    | false =>
      refine levelled.levelizeRoots.bind fun found run ends => ?_
      rw [done] at raises
      have within := within_ensureLatchLevels ends.2 (raises found run)
      have none : NoGray (ensureLatchLevels design levelSpace found.1) := noGray_ensureLatchLevels ends.1
      refine Ends.bind (levelizeCycles_ends levelled.sound (keeps_within design _ _) ?_ none within) fun _ _ ends => ?_
      · exact fun _ _ => trivial
      · exact ⟨levelled.sound, ends.1, ends.2⟩

omit [LinearOrder P] [LinearOrder V] [LinearOrder E] in
theorem Levelled.invalid (levelled : Levelled design st) : Levelled design (invalid st) :=
  ⟨levelled.sound, noGray_deleteLoops levelled.noGray, within_deleteLoops levelled.within⟩

omit [LinearOrder P] [LinearOrder V] in
theorem Levelled.deleteEdgeBefore (levelled : Levelled design st) (e : E) :
    Levelled design (deleteEdgeBefore e st) := by
  unfold Levelize.deleteEdgeBefore
  split
  · exact levelled.invalid
  · exact levelled

omit [LinearOrder E] [LinearOrder P] in
theorem Levelled.relevelizeFromVertex (levelled : Levelled design st) (v : V) :
    Levelled design (relevelizeFromVertex v st) :=
  ⟨levelled.sound, levelled.noGray, levelled.within⟩

theorem Levelled.step (levelled : Levelled design st) {event : Event V E} (valid : Valid design st event)
    (raises : RaisedWithin design levelSpace st event) : Ends (step design levelSpace st event) (Levelled design) := by
  cases event with
  | makeVertex v =>
    have none : NoGray (setLevel st.search v 0) := levelled.noGray
    refine ⟨levelled.sound.makeVertex v, noGray_setColor none v (by decide), fun u mem => ?_⟩
    rcases List.mem_cons.1 mem with rfl | mem
    · exact (if_pos rfl).trans_le (Nat.zero_le _)
    · exact (levelled.within.setLevel (Nat.zero_le _)) u mem
  | makeEdge e => exact ⟨levelled.sound.makeEdge valid.1 valid.2, levelled.noGray, levelled.within⟩
  | deleteEdge e =>
    have before := (levelled.relevelizeFromVertex (design.toVertex e)).deleteEdgeBefore e
    exact ⟨before.sound.deleteEdge e, before.noGray, before.within⟩
  | deleteVertex v kind wire =>
    have first : Levelled design (deleteVertexBefore v st) := ⟨levelled.sound, levelled.noGray, levelled.within⟩
    obtain ⟨st', before, same⟩ := deleteVertex_told design kind wire
      (fun st e here => here.deleteEdgeBefore e) (fun st v here => here.relevelizeFromVertex v) first
    show Ends (.ok (deleteVertex design v kind wire st)) _
    rw [same]
    refine ⟨(before.sound.deleteVertex v).1, before.noGray, fun u mem => ?_⟩
    exact before.within u ((before.sound.deleteVertex v).2.2 u mem)
  | invalidFrom v => exact ⟨levelled.sound, levelled.noGray, levelled.within⟩
  | relevelizeFrom v => exact levelled.relevelizeFromVertex v
  | invalid => exact levelled.invalid
  | ensureLevelized => exact levelled.ensureLevelized raises

/-- Along a run whose raises stay within the highest level, no level is above it and the queues have an entry for every
vertex. -/
theorem levels_bounded (design : Design V E P) (levelSpace : ℕ) (events : List (Event V E))
    (meets : Along design levelSpace (fun st event => Valid design st event ∧ RaisedWithin design levelSpace st event)
      initial events) :
    Ends (run design levelSpace initial events) Bounded := by
  have start : Levelled design (initial : State V E) :=
    ⟨⟨by simp [initial], by simp [initial]⟩, by simp [NoGray,initial], by simp [Within,initial]⟩
  have ends := meets.ends (fun st event here meets => here.step meets.1 meets.2) start
  exact ends.mono fun st levelled => levelled.within.bounded

end Runs

section Latch

/-- A buffer before the data pin 3 of a latch with an enable pin 5 and the outputs 6 and 7, the latter after the
former. -/
def latch : Design ℕ ℕ ℕ where
  pin := id
  fromVertex e := [0, 1, 2, 4, 5, 6, 3, 3].getD e 0
  toVertex e := [1, 2, 3, 5, 6, 7, 6, 7].getD e 0
  searchFrom _ := true
  searchTo _ := true
  searchThru e := e < 6
  latchDtoQ e := 6 ≤ e
  slewFromLoad _ := false
  bidirectDrvr _ := false
  drvrVertex _ := none
  drvr_slew := by simp
  drvr_noEdge := by simp
  drvr_isDrvr := by simp
  drvr_last := by simp

def made (vertices edges : ℕ) : List (Event ℕ ℕ) :=
  (List.range vertices).map .makeVertex ++ (List.range edges).map .makeEdge

theorem levels_bounded_latch :
    Along latch 10 (fun st event => Valid latch st event ∧ RaisedWithin latch 10 st event) initial
    (made 8 7 ++ [.ensureLevelized]) ∧ Ends (run latch 10 initial (made 8 7 ++ [.ensureLevelized])) Bounded := by
  have meets : Along latch 10 (fun st event => Valid latch st event ∧ RaisedWithin latch 10 st event) initial
      (made 8 7 ++ [.ensureLevelized]) := by decide +kernel
  exact (and_iff_left_of_imp (levels_bounded latch 10 _)).mpr meets

/-- The data pin comes out at the level of the second output, is raised to 40, and the highest level stays 30. -/
theorem latch_unbounded : Along latch 10 (Valid latch) initial (made 8 8 ++ [.ensureLevelized]) ∧
    ∃ st, run latch 10 initial (made 8 8 ++ [.ensureLevelized]) = .ok st ∧ ¬Bounded st := by
  refine ⟨by decide +kernel, _, rfl, fun bounded => ?_⟩
  have le := bounded.within 3 (by decide +kernel)
  revert le
  decide +kernel

end Latch

end GTPower.Levelize
