import GTPower.LevelSearch

/-! Runs of edits and searches: the lists of edges stay those of a graph, every search ends, and what each step keeps is
kept. -/

namespace GTPower.Levelize

section Ends

universe u

variable {σ τ : Type u} {α : Type*} {post post' : σ → Prop} {result : Except Failure σ}

/-- The program goes on with what is said, or it ends since a level got too high. -/
def Ends (result : Except Failure σ) (post : σ → Prop) : Prop :=
  match result with
  | .ok s => post s
  | .error failure => failure = .maximumLevel

theorem Ends.of_ok (ends : result ≠ .error .outOfFuel) (holds : ∀ s, result = .ok s → post s) : Ends result post := by
  cases result with
  | ok s => exact holds s rfl
  | error failure =>
    cases failure with
    | outOfFuel => exact absurd rfl ends
    | maximumLevel => exact rfl

theorem Ends.mono (ends : Ends result post) (weaker : ∀ s, post s → post' s) : Ends result post' := by
  cases result with
  | ok s => exact weaker s ends
  | error failure => exact ends

theorem Ends.bind {next : σ → Except Failure τ} {after : τ → Prop} (ends : Ends result post)
    (goesOn : ∀ s, result = .ok s → post s → Ends (next s) after) : Ends (result >>= next) after := by
  cases result with
  | ok s => exact goesOn s rfl ends
  | error failure => exact ends

theorem Ends.foldlM {step : σ → α → Except Failure σ} {inv : List α → σ → Prop} {l : List α} {s : σ}
    (keeps : ∀ done, ∀ a ∈ l, ∀ s, inv done s → Ends (step s a) (inv (done ++ [a]))) (start : inv [] s) :
    Ends (l.foldlM step s) (inv l) := by
  have one : ∀ done, ∀ a ∈ l, ∀ s s', inv done s → step s a = .ok s' → inv (done ++ [a]) s' := by
    intro done a mem s s' here run
    have ends := keeps done a mem s here
    rwa [run] at ends
  cases run : l.foldlM step s with
  | ok s' => exact foldlM_done one start run
  | error failure =>
    obtain ⟨done, a, mem, s₁, here, failed⟩ := foldlM_fails one start run
    have ends := keeps done a mem s₁ here
    rwa [failed] at ends

theorem Ends.foldlM_inv {step : σ → α → Except Failure σ} {inv : σ → Prop} {l : List α} {s : σ}
    (keeps : ∀ a ∈ l, ∀ s, inv s → Ends (step s a) inv) (start : inv s) : Ends (l.foldlM step s) inv := by
  have ends : Ends (l.foldlM step s) ((fun _ => inv) l) := Ends.foldlM (fun _ a mem s here => keeps a mem s here) start
  exact ends

end Ends

variable {V E P : Type*}

section Edits

variable {design : Design V E P} {graph : Graph V E} {u v : V} {e other : E}

theorem Graph.Sound.makeVertex (sound : graph.Sound design) (v : V) : (graph.makeVertex v).Sound design where
  out u e mem := by
    obtain ⟨source, into, inside, target⟩ := sound.out u e mem
    exact ⟨source, into, List.mem_cons_of_mem v inside, List.mem_cons_of_mem v target⟩
  into := sound.into

variable [LinearOrder V]

theorem mem_outEdges_makeEdge : other ∈ (graph.makeEdge design e).outEdges u ↔ u = design.fromVertex e ∧ other = e ∨
    other ∈ graph.outEdges u := by
  simp only [Graph.makeEdge]
  split
  · next eq => simp [eq]
  · next ne => simp [ne]

theorem mem_inEdges_makeEdge : other ∈ (graph.makeEdge design e).inEdges u ↔ u = design.toVertex e ∧ other = e ∨
    other ∈ graph.inEdges u := by
  simp only [Graph.makeEdge]
  split
  · next eq => simp [eq]
  · next ne => simp [ne]

theorem Graph.Sound.makeEdge (sound : graph.Sound design) (source : design.fromVertex e ∈ graph.vertices)
    (target : design.toVertex e ∈ graph.vertices) : (graph.makeEdge design e).Sound design where
  out u other mem := by
    rcases mem_outEdges_makeEdge.1 mem with ⟨rfl, rfl⟩ | mem
    · exact ⟨rfl, mem_inEdges_makeEdge.2 (.inl ⟨rfl, rfl⟩), source, target⟩
    · obtain ⟨source, into, inside⟩ := sound.out u other mem
      exact ⟨source, mem_inEdges_makeEdge.2 (.inr into), inside⟩
  into u other mem := by
    rcases mem_inEdges_makeEdge.1 mem with ⟨rfl, rfl⟩ | mem
    · exact ⟨rfl, mem_outEdges_makeEdge.2 (.inl ⟨rfl, rfl⟩)⟩
    · obtain ⟨target, out⟩ := sound.into u other mem
      exact ⟨target, mem_outEdges_makeEdge.2 (.inr out)⟩

variable [LinearOrder E]

theorem mem_outEdges_deleteEdge (sound : graph.Sound design) :
    other ∈ (graph.deleteEdge design e).outEdges u ↔ other ∈ graph.outEdges u ∧ other ≠ e := by
  simp only [Graph.deleteEdge]
  split
  · simp
  · next ne =>
    constructor
    · exact fun mem => ⟨mem, fun eq => ne (by rw [← eq,(sound.out u other mem).1])⟩
    · exact And.left

theorem mem_inEdges_deleteEdge (sound : graph.Sound design) :
    other ∈ (graph.deleteEdge design e).inEdges u ↔ other ∈ graph.inEdges u ∧ other ≠ e := by
  simp only [Graph.deleteEdge]
  split
  · simp
  · next ne =>
    constructor
    · exact fun mem => ⟨mem, fun eq => ne (by rw [← eq,(sound.into u other mem).1])⟩
    · exact And.left

theorem Graph.Sound.deleteEdge (sound : graph.Sound design) (e : E) : (graph.deleteEdge design e).Sound design where
  out u other mem := by
    obtain ⟨mem, ne⟩ := (mem_outEdges_deleteEdge sound).1 mem
    obtain ⟨source, into, inside⟩ := sound.out u other mem
    exact ⟨source, (mem_inEdges_deleteEdge sound).2 ⟨into, ne⟩, inside⟩
  into u other mem := by
    obtain ⟨mem, ne⟩ := (mem_inEdges_deleteEdge sound).1 mem
    obtain ⟨target, out⟩ := sound.into u other mem
    exact ⟨target, (mem_outEdges_deleteEdge sound).2 ⟨out, ne⟩⟩

theorem Graph.Sound.deleteEdges (sound : graph.Sound design) (edges : List E) :
    (edges.foldl (Graph.deleteEdge design) graph).Sound design ∧
      (edges.foldl (Graph.deleteEdge design) graph).vertices = graph.vertices ∧
        ∀ u other, other ∈ (edges.foldl (Graph.deleteEdge design) graph).outEdges u ↔ other ∈ graph.outEdges u ∧
          other ∉ edges := by
  induction edges generalizing graph with
  | nil => exact ⟨sound, rfl, fun u other => by simp⟩
  | cons e rest ih =>
    obtain ⟨sound', vertices', out'⟩ := ih (sound.deleteEdge e)
    refine ⟨sound', vertices', fun u other => ?_⟩
    rw [List.foldl_cons,out',mem_outEdges_deleteEdge sound,List.mem_cons,not_or,and_assoc]

theorem Graph.Sound.deleteVertex (sound : graph.Sound design) (v : V) :
    (graph.deleteVertex design v).Sound design ∧
      (∀ u other, other ∈ (graph.deleteVertex design v).outEdges u → other ∈ graph.outEdges u) ∧
        ∀ u ∈ (graph.deleteVertex design v).vertices, u ∈ graph.vertices := by
  obtain ⟨sound₁, vertices₁, out₁⟩ := sound.deleteEdges (graph.inEdges v)
  let graph₁ := (graph.inEdges v).foldl (Graph.deleteEdge design) graph
  obtain ⟨sound₂, vertices₂, out₂⟩ := sound₁.deleteEdges (graph₁.outEdges v)
  refine ⟨⟨fun u other mem => ?_, sound₂.into⟩, fun u other mem => ?_, fun u mem => ?_⟩
  · obtain ⟨source, into, inside, target⟩ := sound₂.out u other mem
    obtain ⟨mem₁, apart₁⟩ := (out₂ u other).1 mem
    obtain ⟨mem, apart⟩ := (out₁ u other).1 mem₁
    have notV : u ≠ v := fun eq => apart₁ (eq ▸ mem₁)
    have notTo : design.toVertex other ≠ v := fun eq => apart (eq ▸ (sound.out u other mem).2.1)
    refine ⟨source, into, List.mem_filter.2 ⟨inside, ?_⟩, List.mem_filter.2 ⟨target, ?_⟩⟩
    · simpa using notV
    · simpa using notTo
  · exact ((out₁ u other).1 ((out₂ u other).1 mem).1).1
  · have mem' := (List.mem_filter.1 mem).1
    rwa [vertices₂,vertices₁] at mem'

theorem deleteVertex_told (design : Design V E P) {inv : State V E → Prop} {st : State V E} (kind : PinKind)
    (wire : E → Bool)
    (edge : ∀ st e, inv st → inv (deleteEdgeBefore e st)) (later : ∀ st v, inv st → inv (relevelizeFromVertex v st))
    (first : inv (deleteVertexBefore v st)) :
    ∃ st', inv st' ∧ deleteVertex design v kind wire st = { st' with graph := st'.graph.deleteVertex design v } := by
  cases kind with
  | load =>
    refine ⟨_, ?_, rfl⟩
    exact List.foldlRecOn _ _ first fun st here e _ => edge st e here
  | driver =>
    refine ⟨_, ?_, rfl⟩
    refine List.foldlRecOn _ _ first fun st here e _ => edge _ e ?_
    split
    · exact later st _ here
    · exact here
  | internal => exact ⟨_, first, rfl⟩

end Edits

section Calls

variable [LinearOrder V] [LinearOrder E] [LinearOrder P] (design : Design V E P) (levelSpace : ℕ)

/-- Vertices are new, and edges are between vertices of the graph. -/
def Valid (st : State V E) : Event V E → Prop
  | .makeVertex v => v ∉ st.graph.vertices
  | .makeEdge e => design.fromVertex e ∈ st.graph.vertices ∧ design.toVertex e ∈ st.graph.vertices
  | _ => True

def run (st : State V E) (events : List (Event V E)) : Except Failure (State V E) :=
  events.foldlM (step design levelSpace) st

/-- Every event meets a condition in the state before it. -/
def Along (meets : State V E → Event V E → Prop) : State V E → List (Event V E) → Prop
  | _, [] => True
  | st, event :: rest => meets st event ∧ ∀ st', step design levelSpace st event = .ok st' → Along meets st' rest

instance (st : State V E) (event : Event V E) : Decidable (Valid design st event) :=
  match event with
  | .makeVertex v => inferInstanceAs (Decidable (v ∉ st.graph.vertices))
  | .makeEdge e => inferInstanceAs (Decidable (design.fromVertex e ∈ st.graph.vertices ∧
    design.toVertex e ∈ st.graph.vertices))
  | .deleteEdge _ | .deleteVertex _ _ _ | .invalidFrom _ | .relevelizeFrom _ | .invalid | .ensureLevelized =>
    .isTrue trivial

/-- What is said of a result that is not a failure. -/
instance decidableOk {σ : Type*} (result : Except Failure σ) (post : σ → Prop) [DecidablePred post] :
    Decidable (∀ s, result = .ok s → post s) :=
  match result with
  | .ok s => decidable_of_iff (post s) ⟨fun holds _ same => by cases same; exact holds, fun holds => holds s rfl⟩
  | .error _ => .isTrue fun _ same => by cases same

instance Along.decidable (meets : State V E → Event V E → Prop) [∀ st event, Decidable (meets st event)] :
    ∀ st events, Decidable (Along design levelSpace meets st events)
  | _, [] => .isTrue trivial
  | st, event :: rest =>
    have := fun st' => Along.decidable meets st' rest
    inferInstanceAs (Decidable (meets st event ∧ ∀ st', step design levelSpace st event = .ok st' →
      Along design levelSpace meets st' rest))

variable {design levelSpace} {meets : State V E → Event V E → Prop} {inv : State V E → Prop} {st : State V E}

theorem Along.ends (keeps : ∀ st event, inv st → meets st event → Ends (step design levelSpace st event) inv)
    {events : List (Event V E)} (start : inv st) (along : Along design levelSpace meets st events) :
    Ends (run design levelSpace st events) inv := by
  induction events generalizing st with
  | nil => exact start
  | cons event rest ih =>
    obtain ⟨here, later⟩ := along
    have first := keeps st event start here
    unfold run
    rw [List.foldlM_cons]
    cases one : step design levelSpace st event with
    | ok st' =>
      rw [one] at first
      exact ih first (later st' one)
    | error failure =>
      rw [one] at first
      exact first

theorem Along.append {events : List (Event V E)} {event : Event V E}
    (along : Along design levelSpace meets st (events ++ [event])) :
    Along design levelSpace meets st events ∧ ∀ st', run design levelSpace st events = .ok st' → meets st' event := by
  induction events generalizing st with
  | nil =>
    refine ⟨trivial, fun st' run => ?_⟩
    cases run
    exact along.1
  | cons first rest ih =>
    obtain ⟨here, later⟩ := along
    refine ⟨⟨here, fun st' one => (ih (later st' one)).1⟩, fun st' run => ?_⟩
    obtain ⟨mid, one, run⟩ := foldlM_cons_ok run
    exact (ih (later mid one)).2 st' run

theorem Along.ends_last {post : State V E → Prop} {last : Event V E}
    (keeps : ∀ st event, inv st → meets st event → Ends (step design levelSpace st event) inv)
    (brings : ∀ st, inv st → meets st last → Ends (step design levelSpace st last) post) {events : List (Event V E)}
    (start : inv st) (along : Along design levelSpace meets st (events ++ [last])) :
    Ends (run design levelSpace st (events ++ [last])) post := by
  obtain ⟨before, here⟩ := along.append
  have ends := before.ends keeps start
  have split : run design levelSpace st (events ++ [last]) =
      run design levelSpace st events >>= fun st' => step design levelSpace st' last := by
    unfold run
    rw [List.foldlM_append]
    simp
  rw [split]
  cases one : run design levelSpace st events with
  | ok st' =>
    rw [one] at ends
    exact brings st' ends (here st' one)
  | error failure =>
    rw [one] at ends
    exact ends

end Calls

section Searches

variable [LinearOrder V] {design : Design V E P} {graph : Graph V E} {levelSpace : ℕ} {s : Search V E}
    {inv : Search V E → Prop}

def NoGray (s : Search V E) : Prop := ∀ u, s.color u ≠ .gray

omit [LinearOrder V] in
theorem GrayKept.noGray {s' : Search V E} (kept : GrayKept design s s') (none : NoGray s) : NoGray s' :=
  fun u gray => none u (kept.gray u gray)

omit [LinearOrder V] in
theorem noGray_deleteLoops (none : NoGray s) : NoGray (deleteLoops s) := by
  unfold deleteLoops
  split
  · exact none
  · exact none

theorem noGray_setColor {color : LevelColor} (none : NoGray s) (v : V) (other : color ≠ .gray) :
    NoGray (setColor s v color) := by
  intro u
  rw [color_setColor]
  split
  · exact other
  · exact none u

variable [LinearOrder E] [LinearOrder P]

theorem visit_ends (sound : graph.Sound design) (none : NoGray s) {v : V} {level : ℕ} {path : List E}
    {post : Search V E → Prop}
    (holds : ∀ s', visit design graph levelSpace (callDepth graph) v level path s = .ok s' → post s') :
    Ends (visit design graph levelSpace (callDepth graph) v level path s) fun s' => NoGray s' ∧ post s' := by
  apply Ends.of_ok
  · apply visit_terminates sound fun _ => none v
    have le : freeVertices design graph s ≤ graph.vertices.length := List.length_filter_le _ _
    exact .inl (by unfold callDepth; omega)
  · exact fun s' run => ⟨(visit_gray (fun _ => none v) run).noGray none, holds s' run⟩

theorem levelizeFrom_ends (sound : graph.Sound design) (keeps : Keeps design graph (fun _ => True) inv) {roots : List V}
    (none : NoGray s)
    (holds : inv s) : Ends (levelizeFrom design graph levelSpace roots s) fun s' => NoGray s' ∧ inv s' :=
  Ends.foldlM_inv (fun _ _ _ here => visit_ends sound here.1 fun _ run => keeps.visit trivial here.2 run) ⟨none, holds⟩

theorem levelizeCycles_ends (sound : graph.Sound design) {inside : V → Prop} (keeps : Keeps design graph inside inv)
    {roots : List V} (begins : ∀ v ∈ uncolored design graph s, inside v) (none : NoGray s) (holds : inv s) :
    Ends (levelizeCycles design graph levelSpace s roots) fun found => NoGray found.1 ∧ inv found.1 := by
  refine Ends.foldlM_inv (fun v mem found here => ?_) ⟨none, holds⟩
  unfold levelizeCycle
  split
  · have mem' : v ∈ uncolored design graph s := by
      unfold sortVertices at mem
      exact (List.mem_insertionSort _).1 mem
    exact (visit_ends sound here.1 fun _ run => keeps.visit (begins v mem') here.2 run).bind fun _ _ visited => visited
  · exact here

theorem relevelizeVertex_ends (sound : graph.Sound design) (keeps : Keeps design graph (fun _ => True) inv)
    (lowers : ∀ s v, inv s → inv (setLevel s v 0)) {found : Search V E × List V} (none : NoGray found.1)
    (holds : inv found.1) (v : V) :
    Ends (relevelizeVertex design graph found v) fun found' => NoGray found'.1 ∧ inv found'.1 := by
  unfold relevelizeVertex
  split
  · by_cases root : isRoot found.1 design graph v
    · rw [if_pos root]
      have none' : NoGray (setLevel found.1 v 0) := none
      exact (visit_ends sound none' fun _ run => keeps.visit trivial (lowers _ v holds) run).bind fun _ _ visited =>
        visited
    · rw [if_neg root]
      exact (visit_ends sound none fun _ run => keeps.visit trivial holds run).bind fun _ _ visited => visited
  · exact ⟨none, holds⟩

end Searches

section Roots

variable {design : Design V E P} {graph : Graph V E} {s s' : Search V E} {roots : List V} {u v : V}

theorem isRoot_congr (same : s'.disabledLoop = s.disabledLoop) (v : V) :
    isRoot s' design graph v = isRoot s design graph v := by
  unfold isRoot thru
  rw [same]

variable [LinearOrder V]

theorem level_findRoot : (findRoot design graph (s, roots) v).1.level u = if u = v then 0 else s.level u := by
  unfold findRoot
  dsimp only
  split
  · split <;> rfl
  · rfl

theorem color_findRoot (ne : u ≠ v) : (findRoot design graph (s, roots) v).1.color u = s.color u := by
  unfold findRoot
  dsimp only
  split
  · split
    · exact if_neg ne
    · rfl
  · exact if_neg ne

theorem white_findRoot (inner : ¬isRoot s design graph v) :
    (findRoot design graph (s, roots) v).1.color v = .white := by
  have same : isRoot (setLevel s v 0) design graph v = isRoot s design graph v := isRoot_congr rfl v
  unfold findRoot
  dsimp only
  rw [same,if_neg inner]
  exact if_pos rfl

theorem findRoot_same : (findRoot design graph (s, roots) v).1 =
    { s with
      level := (findRoot design graph (s, roots) v).1.level
      color := (findRoot design graph (s, roots) v).1.color } := by
  unfold findRoot
  dsimp only
  split
  · split <;> rfl
  · rfl

theorem noGray_findRoot (none : NoGray s) : NoGray (findRoot design graph (s, roots) v).1 := by
  have none' : NoGray (setLevel s v 0) := none
  unfold findRoot
  dsimp only
  split
  · split
    · exact noGray_setColor none' v (by decide)
    · exact none'
  · exact noGray_setColor none' v (by decide)

theorem mem_findRoot : u ∈ (findRoot design graph (s, roots) v).2 ↔ u ∈ roots ∨ u = v ∧ isRoot s design graph v := by
  have same : isRoot (setLevel s v 0) design graph v = isRoot s design graph v := isRoot_congr rfl v
  unfold findRoot
  dsimp only
  rw [same]
  split
  · next root => simp [root,or_comm]
  · next inner => simp [inner]

/-- After `findRoots` the vertices are at level 0, and those that are not roots are white. -/
structure RootsFound (design : Design V E P) (graph : Graph V E) (vertices : List V) (s : Search V E) (roots : List V)
    (found : Search V E × List V) : Prop where
  zero : ∀ v ∈ vertices, found.1.level v = 0
  level : ∀ v, v ∉ vertices → found.1.level v = s.level v
  color : ∀ v, v ∉ vertices → found.1.color v = s.color v
  white : ∀ v ∈ vertices, ¬isRoot s design graph v → found.1.color v = .white
  same : found.1 = { s with level := found.1.level, color := found.1.color }
  roots : ∀ v, v ∈ found.2 ↔ v ∈ roots ∨ v ∈ vertices ∧ isRoot s design graph v
  noGray : NoGray s → NoGray found.1

theorem rootsFound (design : Design V E P) (graph : Graph V E) (vertices : List V) (s : Search V E) (roots : List V) :
    RootsFound design graph vertices s roots (vertices.foldl (findRoot design graph) (s, roots)) := by
  induction vertices generalizing s roots with
  | nil => exact ⟨by simp, fun _ _ => rfl, fun _ _ => rfl, by simp, rfl, by simp, id⟩
  | cons v rest ih =>
    have tail := ih (findRoot design graph (s, roots) v).1 (findRoot design graph (s, roots) v).2
    have flags : (findRoot design graph (s, roots) v).1.disabledLoop = s.disabledLoop := by rw [findRoot_same]
    refine ⟨fun u mem => ?_, fun u apart => ?_, fun u apart => ?_, fun u mem inner => ?_, ?_, fun u =>
      ?_, fun none => ?_⟩
    · by_cases later : u ∈ rest
      · exact tail.zero u later
      · obtain rfl : u = v := by simpa [later] using mem
        rw [List.foldl_cons,tail.level u later,level_findRoot,if_pos rfl]
    · rw [List.mem_cons,not_or] at apart
      rw [List.foldl_cons,tail.level u apart.2,level_findRoot,if_neg apart.1]
    · rw [List.mem_cons,not_or] at apart
      rw [List.foldl_cons,tail.color u apart.2,color_findRoot apart.1]
    · by_cases later : u ∈ rest
      · exact tail.white u later (by rwa [isRoot_congr flags])
      · obtain rfl : u = v := by simpa [later] using mem
        rw [List.foldl_cons,tail.color u later,white_findRoot inner]
    · rw [List.foldl_cons,tail.same,findRoot_same]
    · rw [List.foldl_cons,tail.roots,mem_findRoot,isRoot_congr flags,List.mem_cons,or_and_right,or_assoc]
      refine or_congr_right (or_congr_left ?_)
      exact and_congr_right fun eq => by rw [eq]
    · exact tail.noGray (noGray_findRoot none)

end Roots

section Latches

variable [LinearOrder V] [LinearOrder E] [LinearOrder P] {design : Design V E P} {levelSpace : ℕ}

/-- What holds of every latch edge whose data pin is raised, with the edges before it, when it is. -/
def EachRaise (design : Design V E P) (levelSpace : ℕ) (holds : List E → E → Search V E → Prop) : List E → List E →
    Search V E → Prop
  | _, [], _ => True
  | done, e :: rest, s =>
    (s.level (design.fromVertex e) = s.level (design.toVertex e) → holds done e s) ∧
      EachRaise design levelSpace holds (done ++ [e]) rest (ensureLatchLevel design levelSpace s e)

instance EachRaise.decidable (design : Design V E P) (levelSpace : ℕ) (holds : List E → E → Search V E → Prop)
    [∀ done e s, Decidable (holds done e s)] : ∀ done rest s, Decidable (EachRaise design levelSpace holds done rest s)
  | _, [], _ => .isTrue trivial
  | done, e :: rest, s =>
    have := EachRaise.decidable design levelSpace holds (done ++ [e]) rest (ensureLatchLevel design levelSpace s e)
    inferInstanceAs (Decidable ((s.level (design.fromVertex e) = s.level (design.toVertex e) → holds done e s) ∧
      EachRaise design levelSpace holds (done ++ [e]) rest (ensureLatchLevel design levelSpace s e)))

omit [LinearOrder E] [LinearOrder P] in
theorem EachRaise.keeps {holds : List E → E → Search V E → Prop} (inv : List E → Search V E → Prop) {s : Search V E}
    {done rest : List E}
    (apart : ∀ done e s, inv done s → s.level (design.fromVertex e) ≠ s.level (design.toVertex e) → inv (done ++ [e]) s)
    (raise : ∀ done e s, inv done s → s.level (design.fromVertex e) = s.level (design.toVertex e) → holds done e s →
      inv (done ++ [e]) (setLevel s (design.fromVertex e) (s.level (design.fromVertex e) + levelSpace)))
    (start : inv done s) (raises : EachRaise design levelSpace holds done rest s) :
    inv (done ++ rest) (rest.foldl (ensureLatchLevel design levelSpace) s) := by
  induction rest generalizing done s with
  | nil => rwa [List.append_nil]
  | cons e rest ih =>
    obtain ⟨here, later⟩ := raises
    have one : inv (done ++ [e]) (ensureLatchLevel design levelSpace s e) := by
      unfold ensureLatchLevel
      dsimp only
      split
      · next same => exact raise done e s start same (here same)
      · next differ => exact apart done e s start differ
    have tail := ih one later
    rwa [List.append_assoc] at tail

omit [LinearOrder E] [LinearOrder P] in
theorem color_ensureLatchLevels (s : Search V E) : (ensureLatchLevels design levelSpace s).color = s.color := by
  have kept : (s.latchEdges.foldl (ensureLatchLevel design levelSpace) s).color = s.color := by
    refine List.foldlRecOn (motive := fun (s' : Search V E) => s'.color = s.color) _ _ rfl fun s' same e _ => ?_
    unfold ensureLatchLevel
    dsimp only
    split
    · exact same
    · exact same
  exact kept

/-- The search after which the data pins of latches are set apart. -/
def searched (design : Design V E P) (levelSpace : ℕ) (st : State V E) : Except Failure (Search V E × List V) :=
  if st.levelized then relevelizeSearch design st else levelizeRoots design levelSpace st

/-- What holds of every raise when the levels are brought up to date. -/
def AtRaises (design : Design V E P) (levelSpace : ℕ) (holds : List E → E → Search V E → Prop) (st : State V E) :
    Event V E → Prop
  | .ensureLevelized => st.levelsValid = false → ∀ found, searched design levelSpace st = .ok found →
      EachRaise design levelSpace holds [] found.1.latchEdges found.1
  | _ => True

instance (design : Design V E P) (levelSpace : ℕ) (holds : List E → E → Search V E →
    Prop) [∀ done e s, Decidable (holds done e s)]
    (st : State V E) (event : Event V E) : Decidable (AtRaises design levelSpace holds st event) :=
  match event with
  | .ensureLevelized => inferInstanceAs (Decidable (st.levelsValid = false →
    ∀ found, searched design levelSpace st = .ok found →
      EachRaise design levelSpace holds [] found.1.latchEdges found.1))
  | .makeVertex _ | .makeEdge _ | .deleteEdge _ | .deleteVertex _ _ _ | .invalidFrom _ | .relevelizeFrom _ | .invalid =>
    .isTrue trivial

end Latches

end GTPower.Levelize
