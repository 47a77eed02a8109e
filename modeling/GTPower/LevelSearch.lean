import GTPower.Levelize

/-! What a visit of the search does: levels only grow, and every vertex that is left black is below the ends of its
edges. Broken loops aside, a gray vertex is visited again only as the driver of a bidirect port. -/

namespace GTPower.Levelize

section Folds

variable {σ α ε : Type*} {step : σ → α → Except ε σ} {inv : List α → σ → Prop} {s s' : σ} {l : List α}

theorem foldlM_cons_ok {a : α} {rest : List α} (run : (a :: rest).foldlM step s = .ok s') :
    ∃ mid, step s a = .ok mid ∧ rest.foldlM step mid = .ok s' := by
  rw [List.foldlM_cons] at run
  cases first : step s a with
  | error e =>
    rw [first] at run
    cases run
  | ok mid =>
    rw [first] at run
    exact ⟨mid, rfl, run⟩

theorem foldlM_done (keeps : ∀ done, ∀ a ∈ l, ∀ s s', inv done s → step s a = .ok s' → inv (done ++ [a]) s')
    (start : inv [] s) (run : l.foldlM step s = .ok s') : inv l s' := by
  have walk : ∀ (rest done : List α) (s : σ), (∀ a ∈ rest, a ∈ l) → inv done s → rest.foldlM step s = .ok s' →
    inv (done ++ rest) s' := by
    intro rest
    induction rest with
    | nil =>
      intro done s _ here run
      rw [List.append_nil]
      cases run
      exact here
    | cons a rest ih =>
      intro done s sub here run
      obtain ⟨mid, first, run⟩ := foldlM_cons_ok run
      have tail := ih (done ++ [a]) mid (fun b mem => sub b (List.mem_cons_of_mem a mem))
        (keeps done a (sub a List.mem_cons_self) s mid here first) run
      rwa [List.append_assoc] at tail
  exact walk l [] s (fun _ => id) start run

theorem foldlM_keeps {kept : σ → Prop} (keeps : ∀ a ∈ l, ∀ s s', kept s → step s a = .ok s' → kept s') (start : kept s)
    (run : l.foldlM step s = .ok s') : kept s' := by
  have walk : (fun (_ : List α) s => kept s) l s' :=
    foldlM_done (fun _ a mem s s' here one => keeps a mem s s' here one) start run
  exact walk

theorem foldlM_fails {failure : ε}
    (keeps : ∀ done, ∀ a ∈ l, ∀ s s', inv done s → step s a = .ok s' → inv (done ++ [a]) s') (start : inv [] s)
    (run : l.foldlM step s = .error failure) : ∃ done, ∃ a ∈ l, ∃ s, inv done s ∧
    step s a = .error failure := by
  have walk : ∀ (rest done : List α) (s : σ), (∀ a ∈ rest, a ∈ l) → inv done s → rest.foldlM step s = .error failure →
      ∃ done, ∃ a ∈ l, ∃ s, inv done s ∧ step s a = .error failure := by
    intro rest
    induction rest with
    | nil =>
      intro done s _ _ run
      cases run
    | cons a rest ih =>
      intro done s sub here run
      have inside := sub a List.mem_cons_self
      rw [List.foldlM_cons] at run
      cases first : step s a with
      | error e =>
        rw [first] at run
        cases run
        exact ⟨done, a, inside, s, here, first⟩
      | ok mid =>
        rw [first] at run
        exact ih (done ++ [a]) mid (fun b mem => sub b (List.mem_cons_of_mem a mem))
          (keeps done a inside s mid here first) run
  exact walk l [] s (fun _ => id) start run

end Folds

variable {V E P : Type*}

section Relations

variable [LinearOrder V] [LinearOrder E] [LinearOrder P] (design : Design V E P) (graph : Graph V E)

/-- Edges are in the lists of both of their ends, which are vertices of the graph. -/
structure Graph.Sound : Prop where
  out : ∀ v, ∀ e ∈ graph.outEdges v, design.fromVertex e = v ∧ e ∈ graph.inEdges (design.toVertex e) ∧
    v ∈ graph.vertices ∧
    design.toVertex e ∈ graph.vertices
  into : ∀ v, ∀ e ∈ graph.inEdges v, design.toVertex e = v ∧ e ∈ graph.outEdges (design.fromVertex e)

/-- The search predicate lets the edge through. -/
def Enabled (e : E) : Prop :=
  design.searchFrom (design.fromVertex e) ∧ design.searchThru e ∧ design.searchTo (design.toVertex e)

/-- The vertex is below the ends of its enabled edges. -/
def Below (s : Search V E) (u : V) : Prop :=
  ∀ e ∈ graph.outEdges u, Enabled design e → s.disabledLoop e = false → s.level u < s.level (design.toVertex e)

/-- The vertices that were searched from are below, apart from those still to be searched from again. -/
def Ordered (again : V → Prop) (s : Search V E) : Prop := ∀ u, s.color u = .black → ¬again u → Below design graph s u

/-- Vertices that were not reached are at level 0. -/
def WhiteLow (s : Search V E) : Prop := ∀ u, s.color u = .white → s.level u = 0

/-- No vertex is gray that was not, and only drivers of bidirect ports stop to be. -/
structure GrayKept (s s' : Search V E) : Prop where
  gray : ∀ u, s'.color u = .gray → s.color u = .gray
  stays : ∀ u, s.color u = .gray → design.bidirectDrvr u = false → s'.color u = .gray

/-- Levels and broken loops grow, a gray vertex keeps its level while it is gray, no vertex gets white and every new
latch edge comes from one that is not. -/
structure Grown (s s' : Search V E) : Prop extends GrayKept design s s' where
  level_le : ∀ u, s.level u ≤ s'.level u
  disabled : ∀ e, s.disabledLoop e → s'.disabledLoop e
  keeps : ∀ u, s.color u = .gray → s'.color u = .gray → s'.level u = s.level u
  white : ∀ u, s'.color u = .white → s.color u = .white ∧ s'.level u = s.level u
  met : ∀ e ∈ s.met, e ∈ s'.met
  latch : ∀ e ∈ s'.latchEdges, e ∈ s.latchEdges ∨ s'.color (design.fromVertex e) ≠ .white

end Relations

section Grown

variable {design : Design V E P} {graph : Graph V E} {s s' s'' : Search V E} {again : V → Prop}

theorem GrayKept.of_color (same : s'.color = s.color) : GrayKept design s s' where
  gray u gray := by rwa [same] at gray
  stays u gray _ := by rwa [same]

theorem GrayKept.trans (first : GrayKept design s s') (second : GrayKept design s' s'') : GrayKept design s s'' where
  gray u gray := first.gray u (second.gray u gray)
  stays u gray plain := second.stays u (first.stays u gray plain) plain

theorem Grown.refl (s : Search V E) : Grown design s s where
  toGrayKept := .of_color rfl
  level_le _ := le_rfl
  disabled _ := id
  keeps _ _ _ := rfl
  white _ white := ⟨white, rfl⟩
  met _ := id
  latch _ := .inl

theorem Grown.trans (first : Grown design s s') (second : Grown design s' s'') : Grown design s s'' where
  toGrayKept := first.toGrayKept.trans second.toGrayKept
  level_le u := (first.level_le u).trans (second.level_le u)
  disabled e flag := second.disabled e (first.disabled e flag)
  keeps u gray gray'' := by
    have gray' := second.gray u gray''
    rw [second.keeps u gray' gray'',first.keeps u gray gray']
  white u white := by
    obtain ⟨white', level'⟩ := second.white u white
    obtain ⟨white, level⟩ := first.white u white'
    exact ⟨white, level'.trans level⟩
  met e mem := second.met e (first.met e mem)
  latch e mem := by
    rcases second.latch e mem with mem | apart
    · rcases first.latch e mem with mem | apart
      · exact .inl mem
      · exact .inr fun white => apart (second.white _ white).1
    · exact .inr apart

theorem Grown.whiteLow (grown : Grown design s s') (low : WhiteLow s) : WhiteLow s' := by
  intro u white
  obtain ⟨white, level⟩ := grown.white u white
  rw [level]
  exact low u white

theorem Below.mono {u : V} (below : Below design graph s u) (level : s'.level u = s.level u)
    (le : ∀ u, s.level u ≤ s'.level u) (disabled : ∀ e, s.disabledLoop e → s'.disabledLoop e) :
    Below design graph s' u := by
  intro e mem enabled intact
  have intact' : s.disabledLoop e = false := by
    cases flag : s.disabledLoop e with
    | false => rfl
    | true => rw [disabled e flag] at intact; cases intact
  rw [level]
  exact (below e mem enabled intact').trans_le (le _)

theorem Ordered.mono {again' : V → Prop} (ordered : Ordered design graph again s) (less : ∀ u, again u → again' u) :
    Ordered design graph again' s := fun u black apart => ordered u black fun still => apart (less u still)

variable [LinearOrder E]

@[simp] theorem level_meetLatch (s : Search V E) (e : E) : (meetLatch s design e).level = s.level := by
  unfold meetLatch
  split <;> rfl

@[simp] theorem color_meetLatch (s : Search V E) (e : E) : (meetLatch s design e).color = s.color := by
  unfold meetLatch
  split <;> rfl

@[simp] theorem disabledLoop_meetLatch (s : Search V E) (e : E) :
    (meetLatch s design e).disabledLoop = s.disabledLoop := by
  unfold meetLatch; split <;> rfl

variable [LinearOrder P]

theorem grown_recordLoop (s : Search V E) (e : E) (path : List E) : Grown design s (recordLoop s design e path) where
  toGrayKept := .of_color rfl
  level_le _ := le_rfl
  disabled other flag := by simp only [recordLoop]; split <;> simp_all
  keeps _ _ _ := rfl
  white _ white := ⟨white, rfl⟩
  met _ := id
  latch _ := .inl

omit [LinearOrder P] in
theorem grown_meetLatch (s : Search V E) (e : E) (apart : s.color (design.fromVertex e) ≠ .white) :
    Grown design s (meetLatch s design e) where
  toGrayKept := .of_color (color_meetLatch s e)
  level_le _ := by simp
  disabled _ := by simp
  keeps _ _ _ := by simp
  white _ white := by simpa using white
  met other mem := by
    unfold meetLatch
    split
    · exact mem_insertVertex.2 (.inr mem)
    · exact mem
  latch other mem := by
    rw [color_meetLatch]
    unfold meetLatch at mem
    split at mem
    · rcases mem_insertVertex.1 mem with rfl | mem
      · exact .inr apart
      · exact .inl mem
    · exact .inl mem

omit [LinearOrder P] in
theorem met_meetLatch {e : E} (latch : design.latchDtoQ e) : e ∈ (meetLatch s design e).met := by
  simp [meetLatch,latch]

end Grown

section Visit

variable [LinearOrder V] {design : Design V E P} {graph : Graph V E} {s s' : Search V E} {v : V} {level levelSpace : ℕ}

@[simp] theorem level_setColor (s : Search V E) (v : V) (color : LevelColor) :
    (setColor s v color).level = s.level := rfl

@[simp] theorem disabledLoop_setColor (s : Search V E) (v : V) (color : LevelColor) :
    (setColor s v color).disabledLoop = s.disabledLoop := rfl

@[simp] theorem color_setColor (s : Search V E) (v : V) (color : LevelColor) (u : V) :
    (setColor s v color).color u = if u = v then color else s.color u := rfl

/-- A visit may begin: the vertex is not on the stack, unless it drives a bidirect port, and its level does not fall. -/
structure Enterable (design : Design V E P) (s : Search V E) (v : V) (level : ℕ) : Prop where
  free : design.bidirectDrvr v = false → s.color v ≠ .gray
  below : s.level v ≤ level
  short : level < 2 ^ vertexLevelBits

/-- What a visit does to the rest, and that the vertex is done after it. -/
structure Visited (design : Design V E P) (graph : Graph V E) (s s' : Search V E) (v : V) (level : ℕ) : Prop where
  grown : Grown design s s'
  black : s'.color v = .black
  raised : level ≤ s'.level v
  exact : design.bidirectDrvr v = false → s'.level v = level
  ordered : ∀ again, Ordered design graph again s → Ordered design graph (fun u => again u ∧ u ≠ v) s'
  met : design.searchFrom v → ∀ e ∈ graph.outEdges v, design.latchDtoQ e → e ∈ s'.met

@[simp] theorem level_enterVertex (s : Search V E) (v : V) (level : ℕ) (u : V) :
    (enterVertex s v level).level u = if u = v then level % 2 ^ vertexLevelBits else s.level u := rfl

@[simp] theorem color_enterVertex (s : Search V E) (v : V) (level : ℕ) (u : V) :
    (enterVertex s v level).color u = if u = v then .gray else s.color u := rfl

theorem Enterable.level_le (enterable : Enterable design s v level) (u : V) :
    s.level u ≤ (enterVertex s v level).level u := by
  rw [level_enterVertex]
  split
  · next eq =>
    rw [Nat.mod_eq_of_lt enterable.short,eq]
    exact enterable.below
  · exact le_rfl

theorem GrayKept.leave (plain : design.bidirectDrvr v = false → s.color v ≠ .gray)
    (inside : GrayKept design (enterVertex s v level) s') : GrayKept design s (setColor s' v .black) where
  gray u gray := by
    rw [color_setColor] at gray
    split at gray
    · cases gray
    · next ne => simpa [ne] using inside.gray u gray
  stays u gray driven := by
    have ne : u ≠ v := fun eq => plain (eq ▸ driven) (eq ▸ gray)
    simpa [ne] using inside.stays u (by simpa [ne] using gray) driven

theorem Enterable.grown (enterable : Enterable design s v level) (inside : Grown design (enterVertex s v level) s') :
    Grown design s (setColor s' v .black) where
  toGrayKept := .leave enterable.free inside.toGrayKept
  level_le u := (enterable.level_le u).trans (inside.level_le u)
  disabled := inside.disabled
  keeps u gray gray' := by
    rw [color_setColor] at gray'
    split at gray'
    · cases gray'
    · next ne =>
      have kept := inside.keeps u (by simpa [ne] using gray) gray'
      simpa [ne] using kept
  white u white := by
    rw [color_setColor] at white
    split at white
    · cases white
    · next ne => simpa [ne] using inside.white u white
  met := inside.met
  latch e mem := by
    rcases inside.latch e mem with mem | apart
    · exact .inl mem
    · refine .inr fun white => ?_
      rw [color_setColor] at white
      split at white
      · cases white
      · exact apart white

theorem Enterable.whiteLow (low : WhiteLow s) : WhiteLow (enterVertex s v level) := by
  intro u white
  by_cases eq : u = v
  · simp [eq] at white
  · simpa [eq] using low u (by simpa [eq] using white)

theorem Enterable.ordered (enterable : Enterable design s v level) {again : V → Prop}
    (ordered : Ordered design graph again s) :
    Ordered design graph (fun u => again u ∧ u ≠ v) (enterVertex s v level) := by
  intro u black apart
  have ne : u ≠ v := fun eq => by simp [eq] at black
  refine (ordered u (by simpa [ne] using black) fun still => apart ⟨still, ne⟩).mono (by simp [ne])
    enterable.level_le fun _ => id

/-- While the edges of `v` are followed: those already followed lead above it, as long as it was not visited again. -/
structure Following (design : Design V E P) (graph : Graph V E) (again : V → Prop) (v : V) (start : Search V E)
    (done : List E) (s : Search V E) : Prop where
  grown : Grown design start s
  ordered : Ordered design graph again s
  above : s.color v = .gray → ∀ e ∈ done, Enabled design e → s.disabledLoop e = false →
    s.level v < s.level (design.toVertex e)
  met : ∀ e ∈ done, design.latchDtoQ e → e ∈ s.met

variable {again : V → Prop} {start : Search V E} {done : List E} {path : List E} {e : E}

omit [LinearOrder V] in
theorem Following.step (following : Following design graph again v start done s) (grown : Grown design s s')
    (ordered : Ordered design graph again s') : Following design graph again v start done s' where
  grown := following.grown.trans grown
  ordered := ordered
  above still e mem enabled intact := by
    have gray := grown.gray v still
    have intact' : s.disabledLoop e = false := by
      cases flag : s.disabledLoop e with
      | false => rfl
      | true => rw [grown.disabled e flag] at intact; cases intact
    rw [grown.keeps v gray still]
    exact (following.above gray e mem enabled intact').trans_le (grown.level_le _)
  met e mem latch := grown.met e (following.met e mem latch)

variable [LinearOrder E] [LinearOrder P]

omit [LinearOrder V] in
theorem followEdge_cases {visitNext : V → List E → Search V E → Except Failure (Search V E)}
    (run : followEdge design visitNext level path s e = .ok s') :
    ∃ s₁, s' = meetLatch s₁ design e ∧
      (s₁ = s ∧ ¬(thru s design e ∧ design.searchTo (design.toVertex e)) ∨
        s₁ = recordLoop s design e path ∨
        (design.searchThru e ∧ design.searchTo (design.toVertex e)) ∧ s.color (design.toVertex e) ≠ .gray ∧
          (s.color (design.toVertex e) = .white ∨ s.level (design.toVertex e) < level) ∧
          visitNext (design.toVertex e) (path ++ [e]) s = .ok s₁ ∨
        s₁ = s ∧ level ≤ s.level (design.toVertex e)) := by
  unfold followEdge at run
  dsimp only at run
  split at run
  · next passes =>
    split at run
    · cases run
      exact ⟨_, rfl, .inr (.inl rfl)⟩
    · next free =>
      split at run
      · next open' =>
        cases visited : visitNext (design.toVertex e) (path ++ [e]) s with
        | error failure =>
          rw [visited] at run
          cases run
        | ok s₁ =>
          rw [visited] at run
          cases run
          have lets : design.searchThru e ∧ design.searchTo (design.toVertex e) := by
            simp only [thru,Bool.and_eq_true] at passes
            exact ⟨passes.1.1, passes.2⟩
          exact ⟨s₁, rfl, .inr (.inr (.inl ⟨lets, free, open', rfl⟩))⟩
      · next closed =>
        cases run
        exact ⟨s, rfl, .inr (.inr (.inr ⟨rfl, not_lt.1 fun less => closed (.inr less)⟩))⟩
  · next blocked =>
    cases run
    exact ⟨s, rfl, .inl ⟨rfl, by simpa using blocked⟩⟩

def VisitsNext (design : Design V E P) (graph : Graph V E) (level : ℕ)
    (visitNext : V → List E → Search V E → Except Failure (Search V E)) :
    Prop :=
  ∀ u path s s', Enterable design s u level → WhiteLow s → visitNext u path s = .ok s' →
    Visited design graph s s' u level

variable {visitNext : V → List E → Search V E → Except Failure (Search V E)}

omit [LinearOrder V] [LinearOrder E] [LinearOrder P] in
theorem enterable_of_open {u : V} (low : WhiteLow s) (short : level < 2 ^ vertexLevelBits)
    (free : design.bidirectDrvr u = false → s.color u ≠ .gray) (open' : s.color u = .white ∨ s.level u < level) :
    Enterable design s u level := by
  refine ⟨free, ?_, short⟩
  rcases open' with white | less
  · rw [low u white]
    exact Nat.zero_le _
  · exact less.le

omit [LinearOrder V] [LinearOrder P] in
theorem ordered_meetLatch (ordered : Ordered design graph again s) (e : E) :
    Ordered design graph again (meetLatch s design e) := by
  intro u black apart
  exact (ordered u (by simpa using black) apart).mono (by simp) (fun _ => by simp) fun _ => by simp

omit [LinearOrder V] in
theorem Following.follow (visits : VisitsNext design graph level visitNext) (short : level < 2 ^ vertexLevelBits)
    (gray : start.color v = .gray) (higher : start.level v < level) (low : WhiteLow s)
    (source : design.fromVertex e = v) (following : Following design graph again v start done s)
    (run : followEdge design visitNext level path s e = .ok s') :
    Following design graph again v start (done ++ [e]) s' := by
  obtain ⟨s₁, rfl, cases'⟩ := followEdge_cases run
  have one : Following design graph again v start done s₁ ∧
      (s₁.color v = .gray → Enabled design e → s₁.disabledLoop e = false →
        s₁.level v < s₁.level (design.toVertex e)) := by
    rcases cases' with ⟨rfl, blocked⟩ | rfl | ⟨_, free, open', visited⟩ | ⟨rfl, above⟩
    · refine ⟨following, fun _ enabled intact => absurd ⟨?_, enabled.2.2⟩ blocked⟩
      simp [thru,enabled.2.1,intact]
    · have grown : Grown design s (recordLoop s design e path) := grown_recordLoop s e path
      refine ⟨following.step grown fun u black apart => ?_, fun _ _ intact => by simp [recordLoop] at intact⟩
      exact (following.ordered u black apart).mono rfl grown.level_le grown.disabled
    · have visited := visits _ _ _ _ (enterable_of_open low short (fun _ => free) open') low visited
      refine ⟨following.step visited.grown ((visited.ordered _ following.ordered).mono fun u here => here.1),
        fun still _ _ => ?_⟩
      have level' := (following.grown.trans visited.grown).keeps v gray still
      rw [level']
      exact higher.trans_le visited.raised
    · refine ⟨following, fun still _ _ => ?_⟩
      rw [following.grown.keeps v gray still]
      exact higher.trans_le above
  obtain ⟨before, here⟩ := one
  have entered : s₁.color (design.fromVertex e) ≠ .white := fun white => by
    have white := (before.grown.white _ white).1
    rw [source,gray] at white
    cases white
  have after := before.step (grown_meetLatch s₁ e entered) (ordered_meetLatch before.ordered e)
  refine ⟨after.grown, after.ordered, fun still other mem => ?_, fun other mem latch => ?_⟩
  · rcases List.mem_append.1 mem with mem | mem
    · exact after.above still other mem
    · obtain rfl := List.mem_singleton.1 mem
      simpa using here (by simpa using still)
  · rcases List.mem_append.1 mem with mem | mem
    · exact after.met other mem latch
    · obtain rfl := List.mem_singleton.1 mem
      exact met_meetLatch latch

omit [LinearOrder V] [LinearOrder E] [LinearOrder P] in
theorem Following.drvr (visits : VisitsNext design graph level visitNext) (short : level < 2 ^ vertexLevelBits)
    (low : WhiteLow s) (following : Following design graph again v start done s)
    (run : followDrvr design visitNext level path v s = .ok s') :
    Following design graph again v start done s' := by
  unfold followDrvr at run
  split at run
  · cases run
    exact following
  · next drvr isDrvr =>
    split at run
    · next open' =>
      have plain : design.bidirectDrvr drvr = false → s.color drvr ≠ .gray := fun none => by
        rw [design.drvr_isDrvr v drvr isDrvr] at none
        cases none
      have visited := visits _ _ _ _ (enterable_of_open low short plain open'.2) low run
      exact following.step visited.grown ((visited.ordered _ following.ordered).mono fun u here => here.1)
    · cases run
      exact following

theorem visit_cases {fuel : ℕ} (run : visit design graph levelSpace (fuel + 1) v level path s = .ok s') :
    level + levelSpace < vertexLevelMax ∧ ∃ s₁, s' = setColor s₁ v .black ∧
      (design.searchFrom v = false ∧ s₁ = enterVertex s v level ∨
        design.searchFrom v ∧ ∃ s₂, (graph.outEdges v).foldlM (followEdge design
            (fun u path s => visit design graph levelSpace fuel u (level + levelSpace) path s)
              (level + levelSpace) path)
              (enterVertex s v level) = .ok s₂ ∧
          followDrvr design (fun u path s => visit design graph levelSpace fuel u (level + levelSpace) path s)
            (level + levelSpace) path v s₂ =
            .ok s₁) := by
  unfold visit at run
  dsimp only at run
  split at run
  · cases run
  next fits =>
  refine ⟨not_le.1 fits, ?_⟩
  split at run
  · next searched =>
    cases edges : (graph.outEdges v).foldlM (followEdge design
        (fun u path s => visit design graph levelSpace fuel u (level + levelSpace) path s) (level + levelSpace) path)
          (enterVertex s v level) with
    | error failure =>
      simp only [edges] at run
      cases run
    | ok s₂ =>
      simp only [edges] at run
      cases drvr : followDrvr design (fun u path s => visit design graph levelSpace fuel u (level + levelSpace) path s)
          (level + levelSpace) path v s₂ with
      | error failure =>
        have failed : (Except.error failure : Except Failure (Search V E)) = .ok s' := by
          rw [← run]
          simp only [bind,Except.bind,drvr]
        cases failed
      | ok s₁ =>
        have ended : (Except.ok (setColor s₁ v .black) : Except Failure (Search V E)) = .ok s' := by
          rw [← run]
          simp only [bind,Except.bind,pure,Except.pure,drvr]
        cases ended
        exact ⟨s₁, rfl, .inr ⟨searched, s₂, rfl, drvr⟩⟩
  · next ends =>
    cases run
    exact ⟨_, rfl, .inl ⟨by simpa using ends, rfl⟩⟩

omit [LinearOrder E] [LinearOrder P] in
theorem following_start (enterable : Enterable design s v level) (ordered : Ordered design graph again s) :
    Following design graph (fun u => again u ∧ u ≠ v) v (enterVertex s v level) [] (enterVertex s v level) where
  grown := .refl _
  ordered := enterable.ordered ordered
  above _ e mem := by cases mem
  met e mem := by cases mem

theorem following_keeps (sound : graph.Sound design) (visits : VisitsNext design graph (level + levelSpace) visitNext)
    (space : 0 < levelSpace) (short : level + levelSpace < 2 ^ vertexLevelBits) (enterable : Enterable design s v level)
    (low : WhiteLow s) :
    ∀ done, ∀ e ∈ graph.outEdges v, ∀ s₁ s₂, Following design graph again v (enterVertex s v level) done s₁ →
      followEdge design visitNext (level + levelSpace) path s₁ e = .ok s₂ →
        Following design graph again v (enterVertex s v level) (done ++ [e]) s₂ := by
  intro done e mem s₁ s₂ here run
  have gray : (enterVertex s v level).color v = .gray := by simp
  have higher : (enterVertex s v level).level v < level + levelSpace := by
    rw [level_enterVertex,if_pos rfl,Nat.mod_eq_of_lt enterable.short]
    omega
  exact here.follow visits short gray higher (here.grown.whiteLow (Enterable.whiteLow low)) (sound.out v e mem).1 run

omit [LinearOrder E] [LinearOrder P] in
/-- A vertex that is left with its edges followed is in order, and so is what the search went through. -/
theorem Visited.of_following (enterable : Enterable design s v level) {s₁ : Search V E}
    (following : ∀ again, Ordered design graph again s →
      Following design graph (fun u => again u ∧ u ≠ v) v (enterVertex s v level) done s₁)
    (all : ∀ e ∈ graph.outEdges v, Enabled design e → e ∈ done)
    (met : design.searchFrom v → ∀ e ∈ graph.outEdges v, e ∈ done) :
    Visited design graph s (setColor s₁ v .black) v level := by
  have any := following (fun _ => True) fun _ _ apart => absurd trivial apart
  have start : (enterVertex s v level).level v = level := by
    rw [level_enterVertex,if_pos rfl,Nat.mod_eq_of_lt enterable.short]
  refine ⟨enterable.grown any.grown, by simp, ?_, fun plain => ?_, fun again ordered u black apart => ?_,
    fun searched e mem latch => ?_⟩
  · have raised := any.grown.level_le v
    rw [start] at raised
    simpa using raised
  · have gray : (enterVertex s v level).color v = .gray := by simp
    rw [level_setColor,any.grown.keeps v gray (any.grown.stays v gray plain),start]
  · have here := following again ordered
    by_cases eq : u = v
    · subst eq
      cases color : s₁.color u with
      | black => exact here.ordered u color fun still => still.2 rfl
      | gray => exact fun e mem enabled intact => here.above color e (all e mem enabled) enabled intact
      | white =>
        have white := (here.grown.white u color).1
        simp at white
    · exact here.ordered u (by simpa [eq] using black) apart
  · exact any.met e (met searched e mem) latch

theorem visit_spec (sound : graph.Sound design) (space : 0 < levelSpace) {fuel : ℕ}
    (enterable : Enterable design s v level)
    (low : WhiteLow s) (run : visit design graph levelSpace fuel v level path s = .ok s') :
    Visited design graph s s' v level := by
  induction fuel generalizing v level path s s' with
  | zero => cases run
  | succ fuel ih =>
    obtain ⟨fits, s₁, rfl, cases'⟩ := visit_cases run
    have short : level + levelSpace < 2 ^ vertexLevelBits := fits.trans_le (Nat.sub_le _ _)
    have visits : VisitsNext design graph (level + levelSpace)
        fun u path s => visit design graph levelSpace fuel u (level + levelSpace) path s :=
      fun u path s s' enterable low run => ih enterable low run
    rcases cases' with ⟨ends, rfl⟩ | ⟨searched, s₂, edges, drvr⟩
    · refine .of_following enterable (fun again ordered => following_start enterable ordered) (fun e mem enabled =>
        ?_) fun searched => ?_
      · have from' := enabled.1
        rw [(sound.out v e mem).1,ends] at from'
        cases from'
      · rw [ends] at searched
        cases searched
    · refine .of_following enterable (fun again ordered => ?_) (fun e mem _ => mem) fun _ e mem => mem
      have followed : Following design graph (fun u => again u ∧ u ≠ v) v (enterVertex s v level)
        (graph.outEdges v) s₂ :=
        foldlM_done (following_keeps sound visits space short enterable low) (following_start enterable ordered) edges
      exact followed.drvr visits short (followed.grown.whiteLow (Enterable.whiteLow low)) drvr

end Visit

section Keeps

variable [LinearOrder V] [LinearOrder E] [LinearOrder P] {design : Design V E P} {graph : Graph V E} {levelSpace : ℕ}

/-- What the steps of a search keep, within a set of vertices that it does not leave. -/
structure Keeps (design : Design V E P) (graph : Graph V E) (inside : V → Prop) (inv : Search V E → Prop) : Prop where
  edge : ∀ v, ∀ e ∈ graph.outEdges v, inside v → design.searchFrom v → design.searchThru e →
    design.searchTo (design.toVertex e) →
    inside (design.toVertex e)
  drvr : ∀ v d, inside v → design.drvrVertex v = some d → inside d
  enter : ∀ s v level, inside v → inv s → inv (enterVertex s v level)
  leave : ∀ s v, inside v → inv s → inv (setColor s v .black)
  record : ∀ s e path, inv s → inv (recordLoop s design e path)
  meet : ∀ s v, ∀ e ∈ graph.outEdges v, inside v → design.searchFrom v → inv s → inv (meetLatch s design e)

theorem Keeps.visit {inside : V → Prop} {inv : Search V E → Prop} (keeps : Keeps design graph inside inv) {fuel : ℕ}
    {v : V} {level : ℕ} {path : List E} {s s' : Search V E} (here : inside v) (holds : inv s)
    (run : visit design graph levelSpace fuel v level path s = .ok s') : inv s' := by
  induction fuel generalizing v level path s s' with
  | zero => cases run
  | succ fuel ih =>
    obtain ⟨_, s₁, rfl, cases'⟩ := visit_cases run
    apply keeps.leave _ _ here
    rcases cases' with ⟨_, rfl⟩ | ⟨searched, s₂, edges, drvr⟩
    · exact keeps.enter _ _ _ here holds
    · have followed : inv s₂ := by
        refine foldlM_keeps (fun e mem s s' holds run => ?_) (keeps.enter _ _ _ here holds) edges
        obtain ⟨s₁, rfl, cases'⟩ := followEdge_cases run
        apply keeps.meet _ v e mem here searched
        rcases cases' with ⟨rfl, _⟩ | rfl | ⟨lets, _, _, visited⟩ | ⟨rfl, _⟩
        · exact holds
        · exact keeps.record _ _ _ holds
        · exact ih (keeps.edge v e mem here searched lets.1 lets.2) holds visited
        · exact holds
      unfold followDrvr at drvr
      split at drvr
      · cases drvr
        exact followed
      · next d isDrvr =>
        split at drvr
        · exact ih (keeps.drvr v d here isDrvr) followed drvr
        · cases drvr
          exact followed

end Keeps

section Termination

variable [LinearOrder V] [LinearOrder E] [LinearOrder P] {design : Design V E P} {graph : Graph V E}
    {levelSpace level : ℕ} {s s' : Search V E} {v : V}

omit [LinearOrder V] in
theorem followEdge_gray {visitNext : V → List E → Search V E → Except Failure (Search V E)} {path : List E} {e : E}
    (next : ∀ u path s s', (design.bidirectDrvr u = false → s.color u ≠ .gray) → visitNext u path s = .ok s' →
      GrayKept design s s') (run : followEdge design visitNext level path s e = .ok s') : GrayKept design s s' := by
  obtain ⟨s₁, rfl, cases'⟩ := followEdge_cases run
  have one : GrayKept design s s₁ := by
    rcases cases' with ⟨rfl, _⟩ | rfl | ⟨_, free, _, visited⟩ | ⟨rfl, _⟩
    · exact .of_color rfl
    · exact .of_color rfl
    · exact next _ _ _ _ (fun _ => free) visited
    · exact .of_color rfl
  exact one.trans (.of_color (color_meetLatch s₁ e))

omit [LinearOrder V] [LinearOrder E] [LinearOrder P] in
theorem followDrvr_gray {visitNext : V → List E → Search V E → Except Failure (Search V E)} {path : List E}
    (next : ∀ u path s s', (design.bidirectDrvr u = false → s.color u ≠ .gray) → visitNext u path s = .ok s' →
      GrayKept design s s') (run : followDrvr design visitNext level path v s = .ok s') : GrayKept design s s' := by
  unfold followDrvr at run
  split at run
  · cases run
    exact .of_color rfl
  · next drvr isDrvr =>
    split at run
    · refine next _ _ _ _ (fun none => ?_) run
      rw [design.drvr_isDrvr v drvr isDrvr] at none
      cases none
    · cases run
      exact .of_color rfl

theorem visit_gray {fuel : ℕ} {path : List E} (plain : design.bidirectDrvr v = false → s.color v ≠ .gray)
    (run : visit design graph levelSpace fuel v level path s = .ok s') : GrayKept design s s' := by
  induction fuel generalizing v level path s s' with
  | zero => cases run
  | succ fuel ih =>
    obtain ⟨_, s₁, rfl, cases'⟩ := visit_cases run
    apply GrayKept.leave plain
    rcases cases' with ⟨_, rfl⟩ | ⟨_, s₂, edges, drvr⟩
    · exact .of_color rfl
    · have followed : GrayKept design (enterVertex s v level) s₂ :=
        foldlM_keeps (fun e _ s s' kept run => kept.trans (followEdge_gray (fun _ _ _ _ plain run => ih plain run) run))
          (.of_color rfl) edges
      exact followed.trans (followDrvr_gray (fun _ _ _ _ plain run => ih plain run) drvr)

/-- How many vertices an edge may still lead the search to. -/
def freeVertices (design : Design V E P) (graph : Graph V E) (s : Search V E) : ℕ :=
  (graph.vertices.filter fun u => s.color u ≠ .gray ∧ design.bidirectDrvr u = false).length

omit [LinearOrder V] [LinearOrder E] [LinearOrder P] in
theorem freeVertices_le (stays : ∀ u, s.color u = .gray → design.bidirectDrvr u = false → s'.color u = .gray) :
    freeVertices design graph s' ≤ freeVertices design graph s := by
  unfold freeVertices
  apply List.Sublist.length_le
  apply List.monotone_filter_right
  intro u
  simp only [decide_eq_true_eq]
  exact fun ⟨notGray, plain⟩ => ⟨fun gray => notGray (stays u gray plain), plain⟩

omit [LinearOrder E] [LinearOrder P] in
theorem freeVertices_enterVertex_le (level : ℕ) : freeVertices design graph (enterVertex s v level) ≤
    freeVertices design graph s :=
  freeVertices_le fun u gray _ => by
    rw [color_enterVertex]
    split
    · rfl
    · exact gray

omit [LinearOrder E] [LinearOrder P] in
theorem freeVertices_enterVertex_lt (level : ℕ) (mem : v ∈ graph.vertices) (notGray : s.color v ≠ .gray)
    (plain : design.bidirectDrvr v = false) :
    freeVertices design graph (enterVertex s v level) < freeVertices design graph s := by
  let before := graph.vertices.filter fun u => s.color u ≠ .gray ∧ design.bidirectDrvr u = false
  have counted : v ∈ before := by simp [before,mem,notGray,plain]
  have less : (before.filter (· ≠ v)).length < before.length := by
    rw [List.length_filter_lt_length_iff_exists]
    exact ⟨v, counted, by simp⟩
  have same : (graph.vertices.filter fun u => (enterVertex s v level).color u ≠ .gray ∧ design.bidirectDrvr u = false) =
      before.filter (· ≠ v) := by
    rw [List.filter_filter]
    apply List.filter_congr
    intro u _
    by_cases eq : u = v <;> simp [eq]
  unfold freeVertices
  rw [same]
  exact less

/-- Calls on the stack that suffice for a visit. -/
def EnoughFuel (design : Design V E P) (graph : Graph V E) (s : Search V E) (v : V) (fuel : ℕ) : Prop :=
  2 * freeVertices design graph s + 2 ≤ fuel ∨ design.bidirectDrvr v ∧ 2 * freeVertices design graph s + 1 ≤ fuel ∨
    v ∈ graph.vertices ∧ design.bidirectDrvr v = false ∧ 2 * freeVertices design graph s ≤ fuel

theorem visit_fails {fuel : ℕ} {path : List E}
    (run : visit design graph levelSpace (fuel + 1) v level path s = .error .outOfFuel) :
    level + levelSpace < vertexLevelMax ∧
      ((graph.outEdges v).foldlM (followEdge design
          (fun u path s => visit design graph levelSpace fuel u (level + levelSpace) path s) (level + levelSpace) path)
            (enterVertex s v level) = .error .outOfFuel ∨
        ∃ s₂, (graph.outEdges v).foldlM (followEdge design
            (fun u path s => visit design graph levelSpace fuel u (level + levelSpace) path s)
              (level + levelSpace) path)
              (enterVertex s v level) = .ok s₂ ∧
          followDrvr design (fun u path s => visit design graph levelSpace fuel u (level + levelSpace) path s)
            (level + levelSpace) path v s₂ =
            .error .outOfFuel) := by
  unfold visit at run
  dsimp only at run
  split at run
  · cases run
  next fits =>
  refine ⟨not_le.1 fits, ?_⟩
  split at run
  · cases edges : (graph.outEdges v).foldlM (followEdge design
        (fun u path s => visit design graph levelSpace fuel u (level + levelSpace) path s) (level + levelSpace) path)
          (enterVertex s v level) with
    | error failure =>
      simp only [edges] at run
      cases run
      exact .inl rfl
    | ok s₂ =>
      simp only [edges] at run
      cases drvr : followDrvr design (fun u path s => visit design graph levelSpace fuel u (level + levelSpace) path s)
          (level + levelSpace) path v s₂ with
      | error failure =>
        have failed : (Except.error failure : Except Failure (Search V E)) = .error .outOfFuel := by
          rw [← run]
          simp only [bind,Except.bind,drvr]
        cases failed
        exact .inr ⟨s₂, rfl, drvr⟩
      | ok s₁ =>
        have ended : (Except.ok (setColor s₁ v .black) : Except Failure (Search V E)) = .error .outOfFuel := by
          rw [← run]
          simp only [bind,Except.bind,pure,Except.pure,drvr]
        cases ended
  · cases run

omit [LinearOrder V] in
theorem followEdge_fails {visitNext : V → List E → Search V E → Except Failure (Search V E)} {path : List E} {e : E}
    (run : followEdge design visitNext level path s e = .error .outOfFuel) :
    s.color (design.toVertex e) ≠ .gray ∧ (s.color (design.toVertex e) = .white ∨ s.level (design.toVertex e) < level) ∧
      visitNext (design.toVertex e) (path ++ [e]) s = .error .outOfFuel := by
  unfold followEdge at run
  dsimp only at run
  split at run
  · split at run
    · cases run
    · next free =>
      split at run
      · next open' =>
        cases visited : visitNext (design.toVertex e) (path ++ [e]) s with
        | error failure =>
          rw [visited] at run
          cases run
          exact ⟨free, open', rfl⟩
        | ok s₁ =>
          rw [visited] at run
          cases run
      · cases run
  · cases run

theorem visit_terminates (sound : graph.Sound design) {fuel : ℕ} {path : List E}
    (free : design.bidirectDrvr v = false → s.color v ≠ .gray) (enough : EnoughFuel design graph s v fuel) :
    visit design graph levelSpace fuel v level path s ≠ .error .outOfFuel := by
  induction fuel generalizing v level path s with
  | zero =>
    rcases enough with more | ⟨_, more⟩ | ⟨mem, plain, more⟩
    · omega
    · omega
    · have less := freeVertices_enterVertex_lt level mem (free plain) plain
      omega
  | succ fuel ih =>
    intro failed
    obtain ⟨_, cases'⟩ := visit_fails failed
    have room : 2 * freeVertices design graph (enterVertex s v level) ≤ fuel ∧
        (design.bidirectDrvr v = false → 2 * freeVertices design graph (enterVertex s v level) + 1 ≤ fuel) := by
      have le : freeVertices design graph (enterVertex s v level) ≤ freeVertices design graph s :=
        freeVertices_enterVertex_le level
      rcases enough with more | ⟨isDrvr, more⟩ | ⟨mem, plain, more⟩
      · exact ⟨by omega, fun _ => by omega⟩
      · exact ⟨by omega, fun plain => by simp [isDrvr] at plain⟩
      · have less := freeVertices_enterVertex_lt level mem (free plain) plain
        exact ⟨by omega, fun _ => by omega⟩
    have keeps : ∀ done : List E, ∀ e ∈ graph.outEdges v, ∀ s₁ s₂, GrayKept design (enterVertex s v level) s₁ →
        followEdge design (fun u path s => visit design graph levelSpace fuel u (level + levelSpace) path s)
          (level + levelSpace) path s₁ e =
          .ok s₂ → GrayKept design (enterVertex s v level) s₂ := fun _ e _ s₁ s₂ kept run =>
      kept.trans (followEdge_gray (fun _ _ _ _ plain run => visit_gray plain run) run)
    have start : GrayKept design (enterVertex s v level) (enterVertex s v level) := .of_color rfl
    rcases cases' with edges | ⟨s₂, edges, drvr⟩
    · obtain ⟨done, e, mem, s₁, here, failed⟩ := foldlM_fails keeps start edges
      obtain ⟨notGray, _, failed⟩ := followEdge_fails failed
      have le : freeVertices design graph s₁ ≤ freeVertices design graph (enterVertex s v level) :=
        freeVertices_le here.stays
      have inside := (sound.out v e mem).2.2.2
      exact ih (fun _ => notGray) (.inr (.inr ⟨inside, design.drvr_noEdge e, by omega⟩)) failed
    · have here : GrayKept design (enterVertex s v level) s₂ := foldlM_done keeps start edges
      have le : freeVertices design graph s₂ ≤ freeVertices design graph (enterVertex s v level) :=
        freeVertices_le here.stays
      unfold followDrvr at drvr
      split at drvr
      · cases drvr
      · next d isDrvr =>
        have drives := design.drvr_isDrvr v d isDrvr
        have plain : design.bidirectDrvr v = false := by
          cases kind : design.bidirectDrvr v with
          | false => rfl
          | true =>
            rw [design.drvr_last v kind] at isDrvr
            cases isDrvr
        have room' := room.2 plain
        split at drvr
        · refine ih (fun none => ?_) (.inr (.inl ⟨drives, by omega⟩)) drvr
          rw [drives] at none
          cases none
        · cases drvr

end Termination

end GTPower.Levelize
