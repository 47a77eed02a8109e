import GTPower.ActivityRuns

/-! Whatever was set before, the activities that are propagated agree with the nets, functions, clock gates and
registers, value changes reach the loads of their nets, and duties are probabilities. -/

namespace GTPower.PowerActivity

namespace Design
variable {V E I K W : Type} {design : Design V E I K} {cudd : BddEvaluation.Cudd}
  {settings : Settings V W} {m m' : Maps V I K W} {v u : V} {a : PwrActivity W} {reg : I}

section Registers
variable (design) (cudd) (settings) [DecidableEq K]

/-- The next state of a register is a function of input pins. -/
def OwnData (reg : I) (seq : Sequential K) : Prop :=
  ∀ port ∈ BddEvaluation.exprPorts seq.data, design.isInternal reg port = false ∧
    ∀ {u}, design.findPin reg port = some u → design.isLoad u = true

def hasUserOutput (reg : I) (output : K) : Bool := ((design.findPin reg output).bind settings.userActivityMap).isSome

/-- An output has the activity of the next state, or the user has set it. -/
def OutputRight (m : Maps V I K W) (reg : I) (seq : Sequential K) (output : K) (invert : Bool) : Prop :=
  design.hasUserOutput settings reg output = false →
    m.seqActivityMap reg output = some (design.regOutputActivity cudd settings m reg seq invert)

/-- The outputs of a register follow its inputs. -/
def Seeded (m : Maps V I K W) (reg : I) : Prop :=
  ∀ seq ∈ design.sequentials reg, design.OwnData reg seq →
    design.OutputRight cudd settings m reg seq seq.output false ∧
      design.OutputRight cudd settings m reg seq seq.outputInv true

end Registers

section RegisterSteps
variable [DecidableEq K] {seq : Sequential K} {seqs : List (Sequential K)} {invert : Bool} {output : K}

/-- Nothing that is read of the inputs of the register differs. -/
def SameInputs (design : Design V E I K) (settings : Settings V W) (m m' : Maps V I K W) (reg : I) : Prop :=
  ∀ w, design.isLoad w = true → design.inst w = reg →
    design.findActivity settings m w = design.findActivity settings m' w

theorem regOutputActivity_congr (lawful : design.Lawful) (own : design.OwnData reg seq)
    (same : SameInputs design settings m m' reg) :
    design.regOutputActivity cudd settings m reg seq invert =
    design.regOutputActivity cudd settings m' reg seq invert := by
  have data : design.evalActivity cudd settings m reg seq.data = design.evalActivity cudd settings m' reg seq.data := by
    refine evalActivity_congr (fun port mem _ found => same _ ((own port mem).2 found) (lawful.instPins found)) fun port
      mem isInternal => ?_
    rw [(own port mem).1] at isInternal
    cases isInternal
  simp only [regOutputActivity,data]

theorem OutputRight.congr (lawful : design.Lawful) (own : design.OwnData reg seq)
    (right : design.OutputRight cudd settings m reg seq output invert)
    (same : SameInputs design settings m m' reg) (kept : m'.seqActivityMap reg output = m.seqActivityMap reg output) :
    design.OutputRight cudd settings m' reg seq output invert := by
  intro free
  rw [kept,right free,regOutputActivity_congr lawful own same]

theorem Seeded.congr (lawful : design.Lawful) (seeded : design.Seeded cudd settings m reg)
    (same : SameInputs design settings m m' reg)
    (kept : ∀ port, m'.seqActivityMap reg port = m.seqActivityMap reg port) : design.Seeded cudd settings m' reg := by
  intro seq mem own
  obtain ⟨first, second⟩ := seeded seq mem own
  exact ⟨first.congr lawful own same (kept _), second.congr lawful own same (kept _)⟩

/-- What the outputs of some registers of an instance are seeded to. -/
structure OutputsSeeded (design : Design V E I K) (cudd : BddEvaluation.Cudd) (settings : Settings V W) (reg : I)
    (seqs : List (Sequential K)) (r r' : Run V I K W) : Prop where
  activityMap : r'.1.activityMap = r.1.activityMap
  visited : r'.1.visited = r.1.visited
  visitedRegs : r'.1.visitedRegs = r.1.visitedRegs
  others : ∀ i port, (i = reg → port ∉ seqs.flatMap fun seq => [seq.output, seq.outputInv]) →
    r'.1.seqActivityMap i port = r.1.seqActivityMap i port
  right : ∀ seq ∈ seqs, design.OwnData reg seq →
    design.OutputRight cudd settings r'.1 reg seq seq.output false ∧
      design.OutputRight cudd settings r'.1 reg seq seq.outputInv true
  waits : ∀ u, r'.2.inQueue u = true ↔ r.2.inQueue u = true ∨ ∃ seq ∈ seqs, u ∈ design.regOutputPins reg seq

variable [DecidableEq I]

theorem seedRegOutput_maps : (design.seedRegOutput cudd settings reg seq output invert m).activityMap = m.activityMap ∧
    (design.seedRegOutput cudd settings reg seq output invert m).visited = m.visited ∧
      (design.seedRegOutput cudd settings reg seq output invert m).visitedRegs = m.visitedRegs ∧
        ∀ i port, (i = reg → port ≠ output) →
          (design.seedRegOutput cudd settings reg seq output invert m).seqActivityMap i port =
            m.seqActivityMap i port := by
  unfold seedRegOutput
  split
  · exact ⟨rfl, rfl, rfl, fun _ _ _ => rfl⟩
  · exact ⟨rfl, rfl, rfl, fun i port apart => if_neg fun same => apart same.1 same.2⟩

theorem outputRight_seedRegOutput (lawful : design.Lawful) (own : design.OwnData reg seq) :
    design.OutputRight cudd settings (design.seedRegOutput cudd settings reg seq output invert m) reg seq output
    invert := by
  intro free
  have same : SameInputs design settings m (design.seedRegOutput cudd settings reg seq output invert m) reg :=
    fun w _ _ =>
    findActivity_congr (congrFun seedRegOutput_maps.1 w).symm
  rw [← regOutputActivity_congr lawful own same]
  have notUser : ¬((design.findPin reg output).bind settings.userActivityMap).isSome = true := by
    rw [hasUserOutput] at free
    simp [free]
  rw [seedRegOutput,if_neg notUser]
  exact if_pos ⟨rfl, rfl⟩

variable [DecidableEq V]

theorem seedSequentials (lawful : design.Lawful) (apart : (seqs.flatMap fun seq => [seq.output, seq.outputInv]).Nodup)
    (r : Run V I K W) :
    OutputsSeeded design cudd settings reg seqs r (seqs.foldl (design.seedSequential cudd settings reg) r) := by
  induction seqs generalizing r with
  | nil => exact ⟨rfl, rfl, rfl, fun _ _ _ => rfl, fun _ mem => absurd mem List.not_mem_nil, by simp⟩
  | cons seq rest ih =>
    rw [List.flatMap_cons,List.nodup_append] at apart
    obtain ⟨own, later, between⟩ := apart
    have differ : seq.output ≠ seq.outputInv := by simpa using own
    let m1 := design.seedRegOutput cudd settings reg seq seq.output false r.1
    let m2 := design.seedRegOutput cudd settings reg seq seq.outputInv true m1
    obtain ⟨map1, visited1, regs1, others1⟩ : m1.activityMap = r.1.activityMap ∧ m1.visited = r.1.visited ∧
      m1.visitedRegs = r.1.visitedRegs ∧ ∀ i port, (i = reg → port ≠ seq.output) →
        m1.seqActivityMap i port = r.1.seqActivityMap i port :=
      seedRegOutput_maps
    obtain ⟨map2, visited2, regs2, others2⟩ : m2.activityMap = m1.activityMap ∧ m2.visited = m1.visited ∧
      m2.visitedRegs = m1.visitedRegs ∧ ∀ i port, (i = reg → port ≠ seq.outputInv) →
        m2.seqActivityMap i port = m1.seqActivityMap i port :=
      seedRegOutput_maps
    have next := ih later (design.seedSequential cudd settings reg r seq)
    have one : (design.seedSequential cudd settings reg r seq).1 = m2 := rfl
    rw [List.foldl_cons]
    refine ⟨next.activityMap.trans (map2.trans map1), next.visited.trans (visited2.trans visited1),
      next.visitedRegs.trans (regs2.trans regs1), fun i port away => ?_, fun seq' mem ownData => ?_, fun u => ?_⟩
    · rw [List.flatMap_cons] at away
      have here : i = reg → port ≠ seq.output ∧ port ≠ seq.outputInv ∧ port ∉ rest.flatMap fun seq =>
        [seq.output, seq.outputInv] := by
        intro same
        have out := away same
        simp only [List.mem_append,List.mem_cons,List.not_mem_nil,or_false,not_or] at out
        exact ⟨out.1.1, out.1.2, out.2⟩
      rw [next.others i port fun same => (here same).2.2,one,others2 i port fun same => (here same).2.1,
        others1 i port fun same => (here same).1]
    · rcases List.mem_cons.1 mem with rfl | mem
      · have sameInputs : SameInputs design settings m2 (rest.foldl (design.seedSequential cudd settings reg)
            (design.seedSequential cudd settings reg r seq')).1 reg :=
              fun w _ _ => findActivity_congr (congrFun next.activityMap w).symm
        have sameFirst : SameInputs design settings m1 m2 reg := fun w _ _ => findActivity_congr (congrFun map2 w).symm
        have first : design.OutputRight cudd settings m1 reg seq' seq'.output false :=
          outputRight_seedRegOutput lawful ownData
        have second : design.OutputRight cudd settings m2 reg seq' seq'.outputInv true :=
          outputRight_seedRegOutput lawful ownData
        have kept : ∀ port, port = seq'.output ∨ port = seq'.outputInv →
            port ∉ rest.flatMap fun seq => [seq.output, seq.outputInv] := by
          intro port isOut later
          exact between port (by simpa using isOut) port later rfl
        refine ⟨?_, second.congr lawful ownData sameInputs (next.others reg _ fun _ => kept _ (Or.inr rfl))⟩
        have first2 := first.congr lawful ownData sameFirst (others2 reg _ fun _ => differ)
        exact first2.congr lawful ownData sameInputs (next.others reg _ fun _ => kept _ (Or.inl rfl))
      · exact next.right seq' mem ownData
    · have flags : (design.seedSequential cudd settings reg r seq).2.inQueue u =
        (r.2.inQueue u || decide (u ∈ design.regOutputPins reg seq)) :=
        Bfs.inQueue_enqueueAll _ u
      rw [next.waits u,flags]
      simp only [Bool.or_eq_true,decide_eq_true_eq,List.exists_mem_cons_iff]
      exact or_assoc

end RegisterSteps

/-! Every pin that was visited and does not wait agrees with what a visit would set, and the outputs of every register
with an input that has an activity follow the inputs, unless the register is to be propagated through again. -/
section Settled
variable {waits : V → Bool} {regs : List I}

theorem SameAt.symm (same : design.SameAt settings m m' u) : design.SameAt settings m' m u :=
  ⟨same.1.symm, fun load => (same.2 load).symm⟩

variable [DecidableEq K]

variable [DecidableEq V]

omit [DecidableEq K] in
theorem seedActivity_visited (r : Run V I K W) (v : V) :
    (design.seedActivity settings r v).1.visited = r.1.visited := by
  unfold seedActivity
  split <;> rfl

omit [DecidableEq V] in
theorem candidate_still (supported : design.Supported v) (same : ∀ u, design.SameAt settings m m' u)
    (seqs : m'.seqActivityMap = m.seqActivityMap) :
    design.candidate cudd settings m' v = design.candidate cudd settings m v := by
  refine candidate_congr supported (fun reads => (same _).symm) fun seq mem port isOut function => ?_
  rw [seqs]

structure Kept (design : Design V E I K) (cudd : BddEvaluation.Cudd) (settings : Settings V W) (regs : List I)
    (m : Maps V I K W) (waits : V → Bool) : Prop where
  right : ∀ v ∈ m.visited, waits v = false → design.Supported v → ∀ a, design.candidate cudd settings m v = some a →
    differs a (m.activity v) = false
  registers : ∀ v ∈ m.visited, v ∉ design.roots → design.isLoad v = true → (m.activity v).isSet = true →
    design.inst v ∈ m.visitedRegs ∨ design.inst v ∈ regs ∨ design.Seeded cudd settings m (design.inst v)
  fresh : ∀ v, v ∉ m.visited → v ∉ design.roots → (m.activity v).isSet = false

theorem Kept.still (lawful : design.Lawful) (kept : Kept design cudd settings regs m waits)
    (still : Still design settings m m') (visited : m'.visited = m.visited ++ [v])
    (close : ∀ a, design.candidate cudd settings m v = some a → differs a (m.activity v) = false) :
    Kept design cudd settings regs m' fun u => waits u && decide (u ≠ v) := by
  refine ⟨fun u mem idle supported a some' => ?_, fun u mem away load isSet => ?_, fun u mem away => ?_⟩
  · rw [candidate_still supported still.same still.seqs] at some'
    rw [← (still.same u).1]
    by_cases isV : u = v
    · subst isV
      exact close a some'
    · rw [visited,List.mem_append,List.mem_singleton] at mem
      simp only [isV,ne_eq,not_false_eq_true,decide_true,Bool.and_true] at idle
      exact kept.right u (mem.resolve_right isV) idle supported a some'
  · rw [← (still.same u).1] at isSet
    have before : u ∈ m.visited := by
      by_contra new
      rw [kept.fresh u new away] at isSet
      cases isSet
    rw [still.visitedRegs]
    have same : SameInputs design settings m m' (design.inst u) :=
      fun w isLoad _ => (still.same w).2 (lawful.apart isLoad)
    refine (kept.registers u before away load isSet).imp_right fun rest => rest.imp_right fun seeded => ?_
    exact seeded.congr lawful same fun port => congrFun (congrFun still.seqs _) port
  · rw [visited,List.mem_append,not_or] at mem
    rw [← (still.same u).1]
    exact kept.fresh u mem.1 away

variable [DecidableEq I]

/-- A visit that sets the activity of a pin. All that is worked out from there waits afterwards. -/
theorem Kept.changed (lawful : design.Lawful) (kept : Kept design cudd settings regs m waits)
    (changed : Changed design settings m m' v a)
    (visited : m'.visited = m.visited ++ [v]) (some' : design.candidate cudd settings m v = some a) :
    Kept design cudd settings regs m' fun u => (waits u && decide (u ≠ v)) || decide (u ∈ design.enqueued v) := by
  have unchanged : ∀ {u}, design.Supported u → ¬design.Reads u v →
      design.candidate cudd settings m' u = design.candidate cudd settings m u := by
    intro u supported apart
    refine candidate_congr supported (fun {w} reads => ?_) fun seq mem port isOut function => by rw [changed.seqs]
    have other : w ≠ v := by
      rintro rfl
      exact apart reads
    exact (changed.same w other).symm
  refine ⟨fun u mem idle supported b other => ?_, fun u mem away load isSet => ?_, fun u mem away => ?_⟩
  · rw [Bool.or_eq_false_iff,decide_eq_false_iff_not] at idle
    have apart : ¬design.Reads u v := fun reads => idle.2 (supported.leads reads)
    rw [unchanged supported apart] at other
    by_cases isV : u = v
    · subst isV
      rw [some'] at other
      cases other
      rw [changed.activity]
      exact differs_self a
    · rw [visited,List.mem_append,List.mem_singleton] at mem
      rw [← (changed.same u isV).1]
      have before : waits u = false := by simpa [isV] using idle.1
      exact kept.right u (mem.resolve_right isV) before supported b other
  · by_cases register : design.loadOfCell v = true ∧ design.hasSequentials (design.inst v) = true ∧
      design.inst u = design.inst v
    · exact Or.inl ((changed.visitedRegs _).mpr (Or.inr register))
    by_cases noRegister : design.sequentials (design.inst u) = []
    · refine Or.inr (Or.inr fun seq mem => ?_)
      rw [noRegister] at mem
      cases mem
    -- no input of the register was set
    have inputs : ∀ w, design.isLoad w = true → design.inst w = design.inst u → w ≠ v := by
      rintro w isLoad same rfl
      have cell := lawful.cells noRegister
      refine register ⟨?_, ?_, same.symm⟩
      · simp [loadOfCell,isLoad,same,cell]
      · simp [hasSequentials,same,noRegister]
    have isV : u ≠ v := inputs u load rfl
    rw [visited,List.mem_append,List.mem_singleton] at mem
    rw [← (changed.same u isV).1] at isSet
    have same : SameInputs design settings m m' (design.inst u) := fun w isLoad isInst =>
      (changed.same w (inputs w isLoad isInst)).2 (lawful.apart isLoad)
    rcases kept.registers u (mem.resolve_right isV) away load isSet with before | pending | seeded
    · exact Or.inl ((changed.visitedRegs _).mpr (Or.inl before))
    · exact Or.inr (Or.inl pending)
    · exact Or.inr (Or.inr (seeded.congr lawful same fun port => congrFun (congrFun changed.seqs _) port))
  · rw [visited,List.mem_append,List.mem_singleton,not_or] at mem
    rw [← (changed.same u mem.2).1]
    exact kept.fresh u mem.1 away

theorem Kept.register (lawful : design.Lawful) {r : Run V I K W}
    (kept : Kept design cudd settings (reg :: regs) r.1 r.2.inQueue) :
    Kept design cudd settings regs (design.seedRegOutputActivities cudd settings r reg).1
      (design.seedRegOutputActivities cudd settings r reg).2.inQueue := by
  have seeded : OutputsSeeded design cudd settings reg (design.sequentials reg) r
    (design.seedRegOutputActivities cudd settings r reg) :=
    seedSequentials lawful (lawful.outputs reg) r
  generalize design.seedRegOutputActivities cudd settings r reg = next at seeded
  have activity : ∀ u, next.1.activity u = r.1.activity u :=
    fun u => by rw [Maps.activity,Maps.activity,seeded.activityMap]
  have same : ∀ u, design.SameAt settings r.1 next.1 u := fun u =>
    ⟨(activity u).symm, fun _ => findActivity_congr (congrFun seeded.activityMap u).symm⟩
  refine ⟨fun u mem idle supported a some' => ?_, fun u mem away load isSet => ?_, fun u mem away => ?_⟩
  · have idle' : ¬(r.2.inQueue u = true ∨ ∃ seq ∈ design.sequentials reg, u ∈ design.regOutputPins reg seq) := by
      rw [← seeded.waits u,idle]
      exact Bool.false_ne_true
    rw [not_or] at idle'
    have kept' : design.candidate cudd settings next.1 u = design.candidate cudd settings r.1 u := by
      refine candidate_congr supported (fun reads => (same _).symm) fun seq isSeq port isOut function => ?_
      refine seeded.others _ port fun isReg => ?_
      -- the pins of this output wait
      exfalso
      refine idle'.2 ⟨seq, isReg ▸ isSeq, ?_⟩
      obtain ⟨name, found, isFunction⟩ := Option.bind_eq_some_iff.1 function
      refine List.mem_filter.2 ⟨isReg ▸ lawful.pins found, ?_⟩
      rw [found,Option.any_some,← isReg,isFunction]
      rcases isOut with rfl | rfl <;> simp
    rw [kept'] at some'
    rw [activity]
    rw [seeded.visited] at mem
    exact kept.right u mem (Bool.eq_false_iff.mpr idle'.1) supported a some'
  · rw [activity] at isSet
    rw [seeded.visited] at mem
    rw [seeded.visitedRegs]
    by_cases isReg : design.inst u = reg
    · refine Or.inr (Or.inr ?_)
      rw [isReg]
      exact seeded.right
    rcases kept.registers u mem away load isSet with before | pending | old
    · exact Or.inl before
    · exact Or.inr (Or.inl ((List.mem_cons.1 pending).resolve_left isReg))
    · have inputs : SameInputs design settings r.1 next.1 (design.inst u) :=
        fun w isLoad _ => (same w).2 (lawful.apart isLoad)
      exact Or.inr (Or.inr (old.congr lawful inputs fun port => seeded.others _ port fun absurd => (isReg absurd).elim))
  · rw [seeded.visited] at mem
    rw [activity]
    exact kept.fresh u mem away

theorem carried_kept (lawful : design.Lawful) : Carried design cudd settings (Kept design cudd settings) where
  visit {regs m waits v} kept _ := by
    obtain ⟨visited, ⟨none, still, close⟩ | ⟨a, some', _, enqueued, changed⟩⟩ := visit_cases cudd settings lawful m v
    · have next := kept.still lawful still visited close
      simpa [none] using next
    · rw [enqueued]
      exact kept.changed lawful changed visited some'
  register kept := kept.register lawful
  take {m waits} kept := by
    have same : ∀ u, design.SameAt settings m { m with visitedRegs := [] } u := fun u => ⟨rfl, fun _ => rfl⟩
    refine ⟨fun u mem idle supported a some' => ?_, fun u mem away load isSet => ?_, kept.fresh⟩
    · rw [candidate_still supported same rfl] at some'
      exact kept.right u mem idle supported a some'
    · rcases kept.registers u mem away load isSet with before | absurd | seeded
      · exact Or.inr (Or.inl before)
      · cases absurd
      · exact Or.inr (Or.inr (seeded.congr lawful (fun w isLoad _ => (same w).2 (lawful.apart isLoad)) fun _ => rfl))
  perm {regs regs' m waits} perm kept := by
    refine ⟨kept.right, fun u mem away load isSet => ?_, kept.fresh⟩
    exact (kept.registers u mem away load isSet).imp_right fun rest => rest.imp_left fun pending =>
      perm.mem_iff.1 pending

omit [DecidableEq I] in
theorem kept_seedActivities : Kept design cudd settings [] (design.seedActivities settings start).1
    (design.seedActivities settings start).2.inQueue := by
  have roots : ∀ (vs : List V) (r : Run V I K W), r.1.visited = [] →
    (∀ v, v ∉ design.roots → (r.1.activity v).isSet = false) →
      (∀ v ∈ vs, v ∈ design.roots) → (vs.foldl (design.seedActivity settings) r).1.visited = [] ∧
        ∀ v, v ∉ design.roots → ((vs.foldl (design.seedActivity settings) r).1.activity v).isSet = false := by
    intro vs
    induction vs with
    | nil => exact fun r visited fresh _ => ⟨visited, fresh⟩
    | cons root rest ih =>
      intro r visited fresh isRoot
      refine ih _ ((seedActivity_visited r root).trans visited) (fun v away => ?_) fun v mem =>
        isRoot v (List.mem_cons_of_mem _ mem)
      unfold seedActivity
      split
      · exact fresh v away
      · have apart : v ≠ root := fun same => away (same ▸ isRoot root List.mem_cons_self)
        show ((r.1.setActivity root _).activity v).isSet = false
        rw [Maps.activity_setActivity,if_neg apart]
        exact fresh v away
  obtain ⟨visited, fresh⟩ := roots design.roots start rfl (fun _ _ => rfl) fun _ mem => mem
  refine ⟨fun v mem => ?_, fun v mem => ?_, fun v _ => fresh v⟩
  · rw [seedActivities,visited] at mem
    cases mem
  · rw [seedActivities,visited] at mem
    cases mem

/-- The activities agree with the design: pins within the tolerance, outputs of registers exactly. -/
structure Settled (design : Design V E I K) (cudd : BddEvaluation.Cudd) (settings : Settings V W) (m : Maps V I K W)
    (regs : List I) :
    Prop where
  pins : ∀ v ∈ m.visited, design.Supported v → ∀ a, design.candidate cudd settings m v = some a →
    differs a (m.activity v) = false
  registers : ∀ v ∈ m.visited, v ∉ design.roots → design.isLoad v = true → (m.activity v).isSet = true →
    design.inst v ∉ regs →
    design.Seeded cudd settings m (design.inst v)

theorem propagateRegs_visitedRegs {fuel passes : ℕ} {regs regs' : List I} {r r' : Run V I K W}
    (taken : r.1.visitedRegs = [])
    (run : design.propagateRegs cudd settings fuel passes regs r = some (r', regs')) : r'.1.visitedRegs = [] := by
  induction passes generalizing regs r with
  | zero =>
    cases run
    exact taken
  | succ passes ih =>
    rw [propagateRegs] at run
    split at run
    · cases run
      exact taken
    · obtain ⟨⟨next, left⟩, pass, rest⟩ := Option.bind_eq_some_iff.1 run
      obtain ⟨searched, _, same⟩ := Option.map_eq_some_iff.1 pass
      obtain ⟨rfl, rfl⟩ := Prod.mk.inj same
      exact ih rfl rest

theorem settled_propagateActivities (lawful : design.Lawful) {fuel : ℕ}
    (run : design.propagateActivities cudd settings fuel = some (m, regs)) :
    Settled design cudd settings m regs := by
  obtain ⟨waits, kept, idle⟩ := propagateActivities_rule (carried_kept lawful) lawful.iterate kept_seedActivities run
  have none : m.visitedRegs = [] := by
    obtain ⟨first, _, rest⟩ := Option.bind_eq_some_iff.1 run
    obtain ⟨⟨last, left⟩, passes, same⟩ := Option.map_eq_some_iff.1 rest
    obtain ⟨rfl, rfl⟩ := Prod.mk.inj same
    exact propagateRegs_visitedRegs rfl passes
  refine ⟨fun v mem supported a some' => kept.right v mem (idle lawful.levels v) supported a some',
    fun v mem away load isSet done => ?_⟩
  rcases kept.registers v mem away load isSet with before | pending | seeded
  · rw [none] at before
    cases before
  · exact absurd pending done
  · exact seeded

end Settled

/-! Value changes that are annotated at a driver. -/
section Waveforms
variable {waits : V → Bool} {regs : List I} {d : V}

theorem differs_unknown (isSet : a.isSet = true) : differs a .unknown = true := by
  have origin : a.origin ≠ .unknown := by simpa [PwrActivity.isSet] using isSet
  simp [differs,PwrActivity.unknown,PwrActivity.plain,origin]

/-- The annotated activity is set at the driver before the load is visited, and the load gets all of it. -/
structure Carries (design : Design V E I K) (settings : Settings V W) (d v : V) (a : PwrActivity W) (_ : List I)
    (m : Maps V I K W) (waits : V → Bool) : Prop where
  driver : m.activity d = .unknown ∨ m.activity d = a
  before : waits v = true ∨ v ∈ m.visited → m.activity d = a
  after : m.activity d = a → waits v = true ∨ v ∈ m.visited
  load : v ∈ m.visited → m.activity v = { a with origin := .propagated }
  fresh : v ∉ m.visited → m.activity v = .unknown

theorem Carries.apart {waits' : V → Bool} {regs' : List I} (carries : Carries design settings d v a regs m waits)
    (driver : m'.activity d = m.activity d) (load : m'.activity v = m.activity v)
    (visited : v ∈ m'.visited ↔ v ∈ m.visited) (queue : waits' v = waits v) :
    Carries design settings d v a regs' m' waits' := by
  refine ⟨?_, ?_, ?_, ?_, ?_⟩
  · rw [driver]
    exact carries.driver
  · rw [driver,visited,queue]
    exact carries.before
  · rw [driver,visited,queue]
    exact carries.after
  · rw [visited,load]
    exact carries.load
  · rw [visited,load]
    exact carries.fresh

/-- The driver gets its activity, and the load waits. -/
theorem Carries.set {waits' : V → Bool} {regs' : List I} (carries : Carries design settings d v a regs m waits)
    (driver : m'.activity d = a)
    (load : m'.activity v = m.activity v) (visited : v ∈ m'.visited ↔ v ∈ m.visited) (queue : waits' v = true) :
    Carries design settings d v a regs' m' waits' := by
  refine ⟨Or.inr driver, fun _ => driver, fun _ => Or.inl queue, ?_, ?_⟩
  · rw [visited,load]
    exact carries.load
  · rw [visited,load]
    exact carries.fresh

variable [DecidableEq K]

/-- A load whose net has one driver, and whose visits come from there alone. -/
structure OnlyLoad (design : Design V E I K) (settings : Settings V W) (d v : V) : Prop where
  load : design.isLoad v = true
  net : ∃ e rest, design.inEdges v = e :: rest ∧ design.isWire e = true ∧ design.fromVertex e = d
  leads : v ∈ design.adjacentVertices d
  only : ∀ {u}, v ∈ design.enqueued u → u = d
  noRegister : ∀ {reg seq}, v ∉ design.regOutputPins reg seq
  noRoot : v ∉ design.roots
  free : settings.userActivityMap v = none

theorem OnlyLoad.candidate_eq (only : OnlyLoad design settings d v) (m : Maps V I K W) :
    design.candidate cudd settings m v = some { m.activity d with origin := .propagated } := by
  obtain ⟨e, rest, first, wire, driver⟩ := only.net
  simp only [candidate,only.free,only.load,first,wire,driver,if_true]

theorem OnlyLoad.ne (lawful : design.Lawful) (only : OnlyLoad design settings d v) : v ≠ d := by
  rintro rfl
  obtain ⟨e, rest, first, wire, driver⟩ := only.net
  have isDriver := lawful.wires (first ▸ List.mem_cons_self) wire
  have load := lawful.apart only.load
  rw [driver,load] at isDriver
  cases isDriver

variable [DecidableEq V] [DecidableEq I]

theorem Carries.visit (lawful : design.Lawful) (only : OnlyLoad design settings d v)
    (user : settings.userActivityMap d = some a)
    (carries : Carries design settings d v a regs m waits) {w : V} (here : waits w = true) :
    Carries design settings d v a regs (design.visit cudd settings m w).1
      fun u => (waits u && decide (u ≠ w)) || decide (u ∈ (design.visit cudd settings m w).2) := by
  have ne := only.ne lawful
  obtain ⟨visited, ⟨none, still, close⟩ | ⟨b, some', _, enqueued, changed⟩⟩ := visit_cases cudd settings lawful m w
  · generalize design.visit cudd settings m w = next at visited none still
    have driver := (still.same d).1.symm
    have load := (still.same v).1.symm
    by_cases isLoad : w = v
    · subst isLoad
      have known := carries.before (Or.inl here)
      have old : w ∈ m.visited := by
        by_contra new
        have differ := close _ (only.candidate_eq m)
        rw [carries.fresh new,differs_unknown] at differ
        · cases differ
        · rfl
      have both : w ∈ next.1.visited ↔ w ∈ m.visited := by simp [visited,old]
      refine ⟨Or.inr (driver.trans known), fun _ => driver.trans known, fun _ => Or.inr (both.2 old), ?_, ?_⟩
      · rw [both,load]
        exact carries.load
      · rw [both,load]
        exact carries.fresh
    · exact carries.apart driver load (by simp [visited,Ne.symm isLoad]) (by simp [none,Ne.symm isLoad])
  · generalize design.visit cudd settings m w = next at visited enqueued changed
    by_cases isDriver : w = d
    · subst isDriver
      have same : b = a := by
        rw [candidate,user] at some'
        exact (Option.some.inj some').symm
      refine carries.set (changed.activity.trans same) (changed.same v ne).1.symm (by simp [visited,ne]) ?_
      have leads : v ∈ design.enqueued w := List.mem_append_right _ only.leads
      simp [enqueued,leads]
    have driver := (changed.same d (Ne.symm isDriver)).1.symm
    by_cases isLoad : w = v
    · subst isLoad
      have known := carries.before (Or.inl here)
      have now : w ∈ next.1.visited := by simp [visited]
      refine ⟨Or.inr (driver.trans known), fun _ => driver.trans known, fun _ => Or.inr now, fun _ => ?_, fun new =>
        absurd now new⟩
      rw [only.candidate_eq m,known] at some'
      rw [changed.activity]
      exact (Option.some.inj some').symm
    · have away : v ∉ design.enqueued w := fun mem => isDriver (only.only mem)
      exact carries.apart driver (changed.same v (Ne.symm isLoad)).1.symm (by simp [visited,Ne.symm isLoad])
        (by simp [enqueued,away,Ne.symm isLoad])

theorem carried_carries (lawful : design.Lawful) (only : OnlyLoad design settings d v)
    (user : settings.userActivityMap d = some a) :
    Carried design cudd settings (Carries design settings d v a) where
  visit carries here := carries.visit lawful only user here
  register {reg regs r} carries := by
    have seeded : OutputsSeeded design cudd settings reg (design.sequentials reg) r
      (design.seedRegOutputActivities cudd settings r reg) :=
      seedSequentials lawful (lawful.outputs reg) r
    generalize design.seedRegOutputActivities cudd settings r reg = next at seeded
    have activity : ∀ u, next.1.activity u = r.1.activity u :=
      fun u => by rw [Maps.activity,Maps.activity,seeded.activityMap]
    refine carries.apart (activity d) (activity v) (by rw [seeded.visited]) (Bool.eq_iff_iff.mpr ?_)
    rw [seeded.waits v]
    refine or_iff_left fun output => ?_
    obtain ⟨seq, _, mem⟩ := output
    exact only.noRegister mem
  take carries := carries.apart rfl rfl Iff.rfl rfl
  perm _ carries := carries.apart rfl rfl Iff.rfl rfl

omit [DecidableEq I] in
theorem carries_seedActivities (lawful : design.Lawful) (only : OnlyLoad design settings d v)
    (user : settings.userActivityMap d = some a)
    (isSet : a.isSet = true) : Carries design settings d v a [] (design.seedActivities settings (start : Run V I K W)).1
      (design.seedActivities settings start).2.inQueue := by
  have ne := only.ne lawful
  have unset : (PwrActivity.unknown : PwrActivity W) ≠ a := by
    rintro rfl
    cases isSet
  have roots : ∀ (vs : List V) (r : Run V I K W), v ∉ vs → Carries design settings d v a ([] : List I) r.1 r.2.inQueue →
      Carries design settings d v a [] (vs.foldl (design.seedActivity settings) r).1
        (vs.foldl (design.seedActivity settings) r).2.inQueue := by
    intro vs
    induction vs with
    | nil => exact fun r _ carries => carries
    | cons root rest ih =>
      intro r away carries
      obtain ⟨notRoot, away⟩ := not_or.1 fun mem => away (List.mem_cons.2 mem)
      refine ih _ away ?_
      unfold seedActivity
      split
      · exact carries
      · have flag : ∀ r : Run V I K W, (design.enqueueAll (design.adjacentVertices root) r).2.inQueue v =
            (r.2.inQueue v || decide (v ∈ design.adjacentVertices root)) := fun r => Bfs.inQueue_enqueueAll _ v
        have load : (r.1.setActivity root ((settings.userActivityMap root).getD settings.inputActivity)).activity v =
          r.1.activity v := by
          rw [Maps.activity_setActivity,if_neg notRoot]
        by_cases isDriver : root = d
        · subst isDriver
          refine carries.set ?_ load Iff.rfl ((flag _).trans (by simp [only.leads]))
          show (r.1.setActivity root _).activity root = a
          rw [Maps.activity_setActivity,if_pos rfl,user,Option.getD_some]
        · have notLed : v ∉ design.adjacentVertices root :=
            fun mem => isDriver (only.only (List.mem_append_right _ mem))
          refine carries.apart ?_ load Iff.rfl ((flag _).trans (by simp [notLed]))
          show (r.1.setActivity root _).activity d = r.1.activity d
          rw [Maps.activity_setActivity,if_neg (Ne.symm isDriver)]
  refine roots design.roots start only.noRoot ⟨Or.inl rfl, fun known => ?_, fun known => absurd known unset, fun mem =>
    ?_, fun _ => rfl⟩
  · rcases known with waits | mem
    · cases waits
    · cases mem
  · cases mem

/-- Where the propagation comes to an annotated driver, its load has all that was annotated. -/
theorem activity_onlyLoad (lawful : design.Lawful) (only : OnlyLoad design settings d v)
    (user : settings.userActivityMap d = some a)
    (isSet : a.isSet = true) {fuel : ℕ} (run : design.propagateActivities cudd settings fuel = some (m, regs))
    (reached : (m.activity d).isSet = true) : m.activity v = { a with origin := .propagated } := by
  obtain ⟨waits, carries, idle⟩ := propagateActivities_rule (carried_carries lawful only user) lawful.iterate
    (carries_seedActivities lawful only user isSet) run
  have known : m.activity d = a := by
    refine carries.driver.resolve_left fun unknown => ?_
    rw [unknown] at reached
    cases reached
  refine carries.load ((carries.after known).resolve_left ?_)
  rw [idle lawful.levels v]
  exact Bool.false_ne_true

end Waveforms

end Design

end GTPower.PowerActivity
