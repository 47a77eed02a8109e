import Mathlib.Data.List.Induction
import GTPower.BfsQueue

/-! What whole visits of the queue keep, when the visit of a vertex only enqueues vertices of higher levels, and that
such visits end. Which vertices are enqueued may depend on the visits before. -/
namespace GTPower.Bfs

variable {V : Type*} [DecidableEq V]

section Source

variable (level : V → ℤ)

def init (levelMin levelMax : ℤ) (st : State V) : State V := { st with firstLevel := levelMax, lastLevel := levelMin }

def deleteEntries (st : State V) (l : ℤ) : State V :=
  setLevel l [] { st with inQueue := fun v => if some v ∈ st.queue l then false else st.inQueue v }

def levels (st : State V) : List ℤ := (List.range (st.lastLevel + 1 - st.firstLevel).toNat).map fun k :
    ℕ => st.firstLevel + k

def clear (levelMin levelMax : ℤ) (st : State V) : State V :=
  init levelMin levelMax ((levels st).foldl deleteEntries st)

/-- The first entry of the vertex becomes a hole. -/
def remove (st : State V) (v : V) : State V :=
  if st.inQueue v = true ∧ some v ∈ st.queue (level v) then
    { setLevel (level v) ((st.queue (level v)).replace (some v) none) st with
      inQueue := fun other => if other = v then false else st.inQueue other }
  else st

def empty (st : State V) : Bool := st.lastLevel < st.firstLevel

end Source

section Sound

variable {level : V → ℤ} {visitor : List V → V → List V} {st st' : State V} {l : ℤ}

/-- Vertices wait once, at their level, between the first level and the last. -/
structure Sound (level : V → ℤ) (st : State V) : Prop where
  count : ∀ l v, (st.queue l).count (some v) = if st.inQueue v = true ∧ level v = l then 1 else 0
  first : ∀ v, st.inQueue v = true → st.firstLevel ≤ level v
  last : ∀ v, st.inQueue v = true → level v ≤ st.lastLevel

theorem Sound.mem_iff (sound : Sound level st) {v : V} : some v ∈ st.queue l ↔ st.inQueue v = true ∧ level v = l := by
  rw [← List.count_pos_iff,sound.count l v]
  split
  · next holds => simp [holds]
  · next fails => simp [fails]

theorem inQueue_enqueueAll (vs : List V) (v : V) :
    (vs.foldl (enqueue level) st).inQueue v = (st.inQueue v || decide (v ∈ vs)) := by
  induction vs generalizing st with
  | nil => simp
  | cons w rest ih =>
    have one : Effect level (level w - 1) [] [w] st (enqueue level st w) := Effect.enqueue (by omega)
    rw [List.foldl_cons,ih,one.inQueue v]
    simp [Bool.or_assoc]

theorem Sound.enqueue (sound : Sound level st) (w : V) : Sound level (enqueue level st w) := by
  have one : Effect level (level w - 1) [] [w] st (Bfs.enqueue level st w) := Effect.enqueue (by omega)
  have waits (v : V) : (Bfs.enqueue level st w).inQueue v = true ↔ st.inQueue v = true ∨ v = w := by
    simp [one.inQueue v]
  refine ⟨fun l v => ?_, fun v mem => ?_, fun v mem => ?_⟩
  · rw [one.vertex l v,sound.count l v]
    cases flag : st.inQueue v with
    | true => simp [waits,flag]
    | false => simp [waits,flag,and_comm]
  · rcases (waits v).mp mem with before | rfl
    · exact ((one.first _).mp le_rfl).1.trans (sound.first v before)
    · cases flag : st.inQueue v with
      | true => exact ((one.first _).mp le_rfl).1.trans (sound.first v flag)
      | false => exact ((one.first _).mp le_rfl).2 v (by simp) flag
  · rcases (waits v).mp mem with before | rfl
    · exact (sound.last v before).trans ((one.last _).mp le_rfl).1
    · cases flag : st.inQueue v with
      | true => exact (sound.last v flag).trans ((one.last _).mp le_rfl).1
      | false => exact ((one.last _).mp le_rfl).2 v (by simp) flag

theorem Sound.enqueueAll (sound : Sound level st) (vs : List V) : Sound level (vs.foldl (Bfs.enqueue level) st) := by
  induction vs generalizing st with
  | nil => exact sound
  | cons w rest ih => exact ih (sound.enqueue w)

theorem Sound.inQueue_remove (sound : Sound level st) (w v : V) :
    (remove level st w).inQueue v = (st.inQueue v && decide (v ≠ w)) := by
  unfold remove
  split
  · by_cases same : v = w <;> simp [same]
  · next away =>
    by_cases same : v = w
    · subst same
      have out : st.inQueue v = false := Bool.eq_false_iff.mpr fun waits => away ⟨waits, sound.mem_iff.mpr ⟨waits, rfl⟩⟩
      simp [out]
    · simp [same]

theorem count_replace {entries : List (Option V)} {w v : V} (mem : some w ∈ entries) :
    (entries.replace (some w) none).count (some v) = entries.count (some v) - if v = w then 1 else 0 := by
  induction entries with
  | nil => cases mem
  | cons entry rest ih =>
    rw [List.replace_cons]
    by_cases same : some w = entry
    · subst same
      by_cases isW : v = w
      · simp [isW]
      · simp [isW,Ne.symm isW]
    · have mem : some w ∈ rest := (List.mem_cons.mp mem).resolve_left same
      have differs : (some w == entry) = false := beq_eq_false_iff_ne.mpr same
      simp only [differs,List.count_cons,ih mem]
      by_cases isW : v = w
      · subst isW
        have positive := List.count_pos_iff.mpr mem
        simp only [if_true]
        omega
      · simp [isW]

/-- Whatever level the vertex gets, the queue is sound after it was removed. -/
theorem Sound.remove (sound : Sound level st) (w : V) (newLevel : ℤ) :
    Sound (fun v => if v = w then newLevel else level v) (remove level st w) := by
  have first : (Bfs.remove level st w).firstLevel = st.firstLevel ∧
    (Bfs.remove level st w).lastLevel = st.lastLevel := by
    unfold Bfs.remove
    split <;> exact ⟨rfl, rfl⟩
  have stays : ∀ v, (Bfs.remove level st w).inQueue v = true → v ≠ w ∧ st.inQueue v = true := by
    intro v waits
    rw [sound.inQueue_remove w v,Bool.and_eq_true,decide_eq_true_iff] at waits
    exact ⟨waits.2, waits.1⟩
  refine ⟨fun l v => ?_, fun v waits => ?_, fun v waits => ?_⟩
  · rw [sound.inQueue_remove w v]
    unfold Bfs.remove
    split
    · next here =>
      simp only [setLevel]
      by_cases isLevel : l = level w
      · subst isLevel
        rw [if_pos rfl,count_replace here.2,sound.count]
        by_cases isW : v = w
        · simp [isW,here.1]
        · simp [isW]
      · rw [if_neg isLevel,sound.count]
        by_cases isW : v = w
        · simp [isW,Ne.symm isLevel]
        · simp [isW]
    · next away =>
      rw [sound.count]
      by_cases isW : v = w
      · subst isW
        have out : st.inQueue v = false :=
          Bool.eq_false_iff.mpr fun waits => away ⟨waits, sound.mem_iff.mpr ⟨waits, rfl⟩⟩
        simp [out]
      · simp [isW]
  · obtain ⟨isW, before⟩ := stays v waits
    rw [if_neg isW,first.1]
    exact sound.first v before
  · obtain ⟨isW, before⟩ := stays v waits
    rw [if_neg isW,first.2]
    exact sound.last v before

omit [DecidableEq V] in
theorem mem_levels {l : ℤ} : l ∈ levels st ↔ st.firstLevel ≤ l ∧ l ≤ st.lastLevel := by
  simp only [levels,List.mem_map,List.mem_range]
  constructor
  · rintro ⟨k, less, rfl⟩
    omega
  · rintro ⟨first, last⟩
    exact ⟨(l - st.firstLevel).toNat, by omega, by omega⟩

omit [DecidableEq V] in
theorem queue_setLevel {entries : List (Option V)} (l l' : ℤ) :
    (setLevel l entries st).queue l' = if l' = l then entries else st.queue l' := rfl

/-- Of the entries of some levels nothing is left, neither in the lists nor in the flags. -/
theorem foldl_deleteEntries (sound : Sound level st) (ls : List ℤ) :
    (∀ v, (ls.foldl deleteEntries st).inQueue v = (st.inQueue v && decide (level v ∉ ls))) ∧
      ∀ l v, ((ls.foldl deleteEntries st).queue l).count (some v) = if st.inQueue v = true ∧ level v = l ∧
        l ∉ ls then 1 else 0 := by
  induction ls using List.reverseRecOn with
  | nil => exact ⟨fun v => by simp, fun l v => by simp [sound.count]⟩
  | append_singleton ls l' ih =>
    obtain ⟨flags, counts⟩ := ih
    rw [List.foldl_append,List.foldl_cons,List.foldl_nil]
    have mem (v : V) : some v ∈ (ls.foldl deleteEntries st).queue l' ↔ st.inQueue v = true ∧ level v = l' ∧
      l' ∉ ls := by
      rw [← List.count_pos_iff,counts l' v]
      split
      · next holds => simp [holds]
      · next fails => simp [fails]
    constructor
    · intro v
      simp only [deleteEntries,setLevel,mem,flags]
      by_cases here : level v = l'
      · cases st.inQueue v <;> by_cases done : l' ∈ ls <;> simp [here,done]
      · simp [here]
    · intro l v
      simp only [deleteEntries,setLevel]
      by_cases same : l = l'
      · simp [same]
      · simp [same,counts]

theorem Sound.clear (sound : Sound level st) (levelMin levelMax : ℤ) (level' : V → ℤ) :
    Sound level' (clear levelMin levelMax st) ∧ ∀ v, (clear levelMin levelMax st).inQueue v = false := by
  obtain ⟨flags, counts⟩ := foldl_deleteEntries sound (levels st)
  have inside : ∀ v, st.inQueue v = true → level v ∈ levels st :=
    fun v waits => mem_levels.mpr ⟨sound.first v waits, sound.last v waits⟩
  have none : ∀ v, (Bfs.clear levelMin levelMax st).inQueue v = false := by
    intro v
    simp only [Bfs.clear,init,flags]
    cases flag : st.inQueue v with
    | true => simp [inside v flag]
    | false => rfl
  refine ⟨⟨fun l v => ?_, fun v waits => ?_, fun v waits => ?_⟩, none⟩
  · rw [none v]
    simp only [Bfs.clear,init,counts]
    rw [if_neg,if_neg (by simp)]
    rintro ⟨waits, rfl, away⟩
    exact away (inside v waits)
  · rw [none v] at waits
    cases waits
  · rw [none v] at waits
    cases waits

end Sound

section Visits

variable {level : V → ℤ} {visitor : List V → V → List V} {st st' : State V} {l toLevel : ℤ} {rest : List (Option V)}
    {fuel : Nat}

/-- Visits only enqueue vertices of higher levels. -/
def Upward (level : V → ℤ) (visitor : List V → V → List V) : Prop :=
  ∀ visited v, ∀ w ∈ visitor visited v, level v < level w

/-- While the entries of a level are visited; `rest` are those that are left. -/
structure Amid (level : V → ℤ) (l : ℤ) (rest : List (Option V)) (st : State V) : Prop where
  other : ∀ l' v, l' ≠ l → (st.queue l').count (some v) = if st.inQueue v = true ∧ level v = l' then 1 else 0
  here : ∀ v, rest.count (some v) = if st.inQueue v = true ∧ level v = l then 1 else 0
  low : ∀ v, st.inQueue v = true → l ≤ level v
  first : st.firstLevel = l + 1
  last : ∀ v, st.inQueue v = true → level v ≤ st.lastLevel

theorem Sound.amid (sound : Sound level st) :
    Amid level st.firstLevel ((incrLevel st).queue st.firstLevel) (incrLevel st) where
  other l' v _ := sound.count l' v
  here v := sound.count _ v
  low := sound.first
  first := rfl
  last := sound.last

theorem Amid.perm {rest' : List (Option V)} (amid : Amid level l rest st) (perm : rest.Perm rest') :
    Amid level l rest' st :=
  { amid with here := fun v => (perm.count_eq (some v)).symm.trans (amid.here v) }

theorem Amid.hole (amid : Amid level l (none :: rest) st) : Amid level l rest st :=
  { amid with here := fun v => by simpa using amid.here v }

theorem Amid.sound (amid : Amid level l [] st) : Sound level (setLevel l [] st) := by
  have gone : ∀ v, st.inQueue v = true → level v ≠ l := by
    rintro v waits rfl
    have none := amid.here v
    simp [waits] at none
  refine ⟨fun l' v => ?_, fun v waits => ?_, amid.last⟩
  · by_cases same : l' = l
    · subst same
      have none := amid.here v
      exact (congrArg (List.count (some v)) (if_pos rfl)).trans none
    · have others := amid.other l' v same
      exact (congrArg (List.count (some v)) (if_neg same)).trans others
  · have above := lt_of_le_of_ne (amid.low v waits) (gone v waits).symm
    have first := amid.first
    simp only [setLevel]
    omega

/-- What the visit of an entry does to the flags. -/
def afterVisit (visitor : List V → V → List V) (visited : List V) (inQueue : V → Bool) (v : V) : V → Bool := fun u =>
  (inQueue u && decide (u ≠ v)) || decide (u ∈ visitor visited v)

theorem Amid.visit {v : V} (upward : Upward level visitor) (amid : Amid level l (some v :: rest) st) :
    st.inQueue v = true ∧ Amid level l rest (visitVertex level visitor st v) ∧
      (visitVertex level visitor st v).visited = st.visited ++ [v] ∧
        (visitVertex level visitor st v).inQueue = afterVisit visitor st.visited st.inQueue v ∧
          (visitVertex level visitor st v).queue l = st.queue l := by
  obtain ⟨waits, here⟩ : st.inQueue v = true ∧ level v = l := by
    by_contra fails
    have one := amid.here v
    simp [fails] at one
  have high : ∀ w ∈ visitor st.visited v, level v < level w := upward st.visited v
  have effect : Effect level l [v] (visitor st.visited v) st (visitVertex level (fun _ => visitor st.visited) st v) :=
    Effect.visitVertex here high
  have effect : Effect level l [v] (visitor st.visited v) st (visitVertex level visitor st v) := effect
  have kept : (visitVertex level (fun _ => visitor st.visited) st v).queue l = st.queue l :=
    (visitVertex_setLevel st [] here high).2
  have kept : (visitVertex level visitor st v).queue l = st.queue l := kept
  have flags : ∀ u, (visitVertex level visitor st v).inQueue u = afterVisit visitor st.visited st.inQueue v u := by
    intro u
    rw [effect.inQueue u,afterVisit]
    simp
  have old : ∀ u, (visitVertex level visitor st v).inQueue u = true → u ∈ visitor st.visited v ∨
    st.inQueue u = true ∧ u ≠ v := by
    intro u isWaiting
    rw [flags u] at isWaiting
    simp only [afterVisit,Bool.or_eq_true,Bool.and_eq_true,decide_eq_true_eq] at isWaiting
    exact isWaiting.symm
  refine ⟨waits, ⟨fun l' u apart => ?_, fun u => ?_, fun u mem => ?_, ?_, fun u mem => ?_⟩, effect.visited,
    funext flags, kept⟩
  · rw [effect.vertex l' u,amid.other l' u apart,flags u]
    by_cases isV : u = v
    · subst isV
      have away : u ∉ visitor st.visited u := fun mem => lt_irrefl _ (high u mem)
      simp [afterVisit,waits,away,here,apart.symm]
    · cases flag : st.inQueue u <;> simp [afterVisit,flag,isV,and_comm]
  · have before := amid.here u
    rw [List.count_cons] at before
    rw [flags u]
    by_cases isV : u = v
    · subst isV
      have away : u ∉ visitor st.visited u := fun mem => lt_irrefl _ (high u mem)
      simp only [waits,here,true_and,if_true,beq_self_eq_true] at before
      simp only [afterVisit,away]
      simpa using before
    · have differs : (some v == some u) = false := by simp [Ne.symm isV]
      simp only [differs,Bool.false_eq_true,if_false,Nat.add_zero] at before
      rw [before]
      by_cases atLevel : level u = l
      · have away : u ∉ visitor st.visited v := fun mem => by
          have := high u mem
          omega
        simp [afterVisit,isV,away]
      · simp [atLevel]
  · rcases old u mem with added | ⟨before, _⟩
    · have := high u added
      omega
    · exact amid.low u before
  · apply le_antisymm
    · exact ((effect.first _).mp le_rfl).1.trans amid.first.le
    · apply (effect.first _).mpr ⟨amid.first.ge, fun u mem _ => ?_⟩
      have := high u mem
      omega
  · rcases old u mem with added | ⟨before, _⟩
    · cases flag : st.inQueue u with
      | true => exact (amid.last u flag).trans ((effect.last _).mp le_rfl).1
      | false => exact ((effect.last _).mp le_rfl).2 u added flag
    · exact (amid.last u before).trans ((effect.last _).mp le_rfl).1

/-- What the visit of a vertex that waits keeps. -/
def Keeps (visitor : List V → V → List V) (inv : List V → (V → Bool) → Prop) : Prop :=
  ∀ visited inQueue v, inv visited inQueue → inQueue v = true →
    inv (visited ++ [v]) (afterVisit visitor visited inQueue v)

variable {inv : List V → (V → Bool) → Prop}

theorem Keeps.visit {next : State V} {v : V} (keeps : Keeps visitor inv) (holds : inv st.visited st.inQueue)
    (waits : st.inQueue v = true)
    (visited : next.visited = st.visited ++ [v]) (inQueue : next.inQueue = afterVisit visitor st.visited st.inQueue v) :
    inv next.visited next.inQueue := by
  rw [visited,inQueue]
  exact keeps st.visited st.inQueue v holds waits

theorem foldl_visitEntry_rule (upward : Upward level visitor) (keeps : Keeps visitor inv) (amid : Amid level l rest st)
    (holds : inv st.visited st.inQueue) : Amid level l [] (rest.foldl (visitEntry level visitor) st) ∧
      inv (rest.foldl (visitEntry level visitor) st).visited (rest.foldl (visitEntry level visitor) st).inQueue ∧
        (rest.foldl (visitEntry level visitor) st).queue l = st.queue l := by
  induction rest generalizing st with
  | nil => exact ⟨amid, holds, rfl⟩
  | cons entry rest ih =>
    cases entry with
    | none => exact ih amid.hole holds
    | some v =>
      obtain ⟨waits, next, visited, inQueue, kept⟩ := amid.visit upward
      obtain ⟨done, holds'', queue⟩ := ih next (keeps.visit holds waits visited inQueue)
      exact ⟨done, holds'', queue.trans kept⟩

theorem Amid.pop {entry : Option V} (amid : Amid level l (st.queue l) st) (last : (st.queue l).getLast? = some entry) :
    (setLevel l (st.queue l).dropLast st).queue l = (st.queue l).dropLast ∧
      Amid level l (entry :: (st.queue l).dropLast) (setLevel l (st.queue l).dropLast st) := by
  obtain ⟨front, split⟩ := List.getLast?_eq_some_iff.1 last
  have perm : (st.queue l).Perm (entry :: (st.queue l).dropLast) := by
    rw [split,List.dropLast_concat]
    exact List.perm_append_singleton entry front
  have here := amid.perm perm
  refine ⟨if_pos rfl, fun l' v apart => ?_, here.here, amid.low, amid.first, amid.last⟩
  exact (congrArg (List.count (some v)) (if_neg apart)).trans (amid.other l' v apart)

theorem popLevel_rule (upward : Upward level visitor) (keeps : Keeps visitor inv) (amid : Amid level l (st.queue l) st)
    (holds : inv st.visited st.inQueue) (run : popLevel level visitor fuel l st = some st') :
    Sound level st' ∧ inv st'.visited st'.inQueue ∧ st'.firstLevel = l + 1 := by
  induction fuel generalizing st with
  | zero => cases run
  | succ fuel ih =>
    rw [popLevel] at run
    split at run
    · next last =>
      have nothing := List.getLast?_eq_none_iff.1 last
      rw [nothing] at amid
      cases Option.some.inj run
      have sound := amid.sound
      rw [setLevel_self nothing] at sound
      exact ⟨sound, holds, amid.first⟩
    · next last =>
      obtain ⟨front_queue, popped⟩ := amid.pop last
      have here : Amid level l ((setLevel l (st.queue l).dropLast st).queue l)
        (setLevel l (st.queue l).dropLast st) := by
        rw [front_queue]
        exact popped.hole
      exact ih here holds run
    · next v last =>
      obtain ⟨front_queue, popped⟩ := amid.pop last
      obtain ⟨waits, next, visited, inQueue, kept⟩ := popped.visit upward
      have here : Amid level l ((visitVertex level visitor (setLevel l (st.queue l).dropLast st) v).queue l)
          (visitVertex level visitor (setLevel l (st.queue l).dropLast st) v) := by
        rw [kept.trans front_queue]
        exact next
      let counted : State V := { visitVertex level visitor (setLevel l (st.queue l).dropLast st) v with
        visitCount := (visitVertex level visitor (setLevel l (st.queue l).dropLast st) v).visitCount + 1 }
      have here' : Amid level l (counted.queue l) counted := ⟨here.other, here.here, here.low, here.first, here.last⟩
      exact ih here' (keeps.visit holds waits visited inQueue) run

theorem visit_rule (upward : Upward level visitor) (keeps : Keeps visitor inv) (sound : Sound level st)
    (holds : inv st.visited st.inQueue) (run : visit level visitor fuel toLevel st = some st') :
    Sound level st' ∧ inv st'.visited st'.inQueue ∧ ¬more toLevel st' := by
  induction fuel generalizing st with
  | zero => cases run
  | succ fuel ih =>
    rw [visit] at run
    split at run
    · obtain ⟨next, here, later⟩ := Option.bind_eq_some_iff.1 run
      have start : inv (incrLevel st).visited (incrLevel st).inQueue := holds
      obtain ⟨sound', holds', _⟩ := popLevel_rule upward keeps sound.amid start here
      exact ih sound' holds' later
    · next stop =>
      cases run
      exact ⟨sound, holds, stop⟩

omit [DecidableEq V] in
theorem perm_order (schedule : Schedule V) (visited : List V) (entries : List (Option V)) {threadCount : Nat}
    (positive : 0 < threadCount) :
    entries.Perm (schedule.order visited (chunks threadCount entries)).flatten := by
  have perm := (schedule.perm visited (chunks threadCount entries)).flatten
  rw [flatten_chunks _ positive] at perm
  exact perm.symm

/-- A level that is visited on threads, in whatever order, is left without an entry. -/
theorem visitLevelParallel_rule {threadCount : Nat} {schedule : Schedule V} (positive : 0 < threadCount)
    (upward : Upward level visitor)
    (keeps : Keeps visitor inv) (amid : Amid level l (st.queue l) st) (holds : inv st.visited st.inQueue) :
    ∃ st', visitLevelParallel level visitor threadCount schedule l st = some st' ∧ Sound level st' ∧
    inv st'.visited st'.inQueue ∧
      st'.firstLevel = l + 1 := by
  unfold visitLevelParallel
  split
  · obtain ⟨done, holds', queue⟩ := foldl_visitEntry_rule upward keeps amid holds
    dsimp only
    rw [if_pos (by rw [queue])]
    exact ⟨_, rfl, done.sound, holds', done.first⟩
  · have perm := perm_order schedule st.visited (st.queue l) positive
    obtain ⟨done, holds', _⟩ := foldl_visitEntry_rule upward keeps (amid.perm perm) holds
    exact ⟨_, rfl, done.sound, holds', done.first⟩

theorem Sound.incrLevel_of_nil (sound : Sound level st) (nothing : st.queue st.firstLevel = []) :
    Sound level (incrLevel st) := by
  have queue : (incrLevel st).queue st.firstLevel = [] := nothing
  have amid := sound.amid
  rw [queue] at amid
  have left := amid.sound
  rwa [setLevel_self queue] at left

theorem parallelLoop_rule {threadCount : Nat} {schedule : Schedule V} (positive : 0 < threadCount)
    (upward : Upward level visitor)
    (keeps : Keeps visitor inv) (sound : Sound level st) (holds : inv st.visited st.inQueue)
    (run : parallelLoop level visitor threadCount schedule fuel toLevel st = some st') :
    Sound level st' ∧ inv st'.visited st'.inQueue ∧ ¬more toLevel st' := by
  induction fuel generalizing st with
  | zero => cases run
  | succ fuel ih =>
    rw [parallelLoop] at run
    split at run
    · split at run
      · next nothing => exact ih (sound.incrLevel_of_nil nothing) holds run
      · obtain ⟨next, here, later⟩ := Option.bind_eq_some_iff.1 run
        have start : inv (incrLevel st).visited (incrLevel st).inQueue := holds
        obtain ⟨next', here', sound', holds', _⟩ := visitLevelParallel_rule positive upward keeps sound.amid start
        cases Option.some.inj (here.symm.trans here')
        exact ih sound' holds' later
    · next stop =>
      cases run
      exact ⟨sound, holds, stop⟩

/-- What every visit keeps holds after a search, on any number of threads, and no vertex up to the level waits any
more. -/
theorem visitParallel_rule {threadCount : Nat} {schedule : Schedule V} (positive : 0 < threadCount)
    (upward : Upward level visitor)
    (keeps : Keeps visitor inv) (sound : Sound level st) (holds : inv st.visited st.inQueue)
    (run : visitParallel level visitor threadCount schedule fuel toLevel st = some st') :
    Sound level st' ∧ inv st'.visited st'.inQueue ∧ ∀ v, st'.inQueue v = true → toLevel < level v := by
  have ends : Sound level st' ∧ inv st'.visited st'.inQueue ∧ ¬more toLevel st' := by
    rw [visitParallel] at run
    split at run
    · split at run
      · exact visit_rule upward keeps sound holds run
      · exact parallelLoop_rule positive upward keeps sound holds run
    · next isEmpty =>
      cases run
      exact ⟨sound, holds, fun more => isEmpty more.1⟩
  refine ⟨ends.1, ends.2.1, fun v waits => ?_⟩
  have first := ends.1.first v waits
  have last := ends.1.last v waits
  have stop := ends.2.2
  unfold more at stop
  omega

/-! Searches end, since the first level goes up and no vertex is above the top. -/

theorem popLevel_mono {fuel' : Nat} (le : fuel ≤ fuel') (run : popLevel level visitor fuel l st = some st') :
    popLevel level visitor fuel' l st = some st' := by
  induction fuel generalizing fuel' st with
  | zero => cases run
  | succ fuel ih =>
    obtain ⟨fuel', rfl⟩ : ∃ n, fuel' = n + 1 := ⟨fuel' - 1, by omega⟩
    rw [popLevel] at run ⊢
    split at run
    · next last => simpa [last] using run
    · next last => simpa [last] using ih (by omega) run
    · next v last => simpa [last] using ih (by omega) run

theorem visit_mono {fuel' : Nat} (le : fuel ≤ fuel') (run : visit level visitor fuel toLevel st = some st') :
    visit level visitor fuel' toLevel st = some st' := by
  induction fuel generalizing fuel' st with
  | zero => cases run
  | succ fuel ih =>
    obtain ⟨fuel', rfl⟩ : ∃ n, fuel' = n + 1 := ⟨fuel' - 1, by omega⟩
    rw [visit] at run ⊢
    split at run
    · next left =>
      rw [if_pos left]
      obtain ⟨next, here, later⟩ := Option.bind_eq_some_iff.1 run
      rw [popLevel_mono (by omega) here]
      exact ih (by omega) later
    · next stop => rwa [if_neg stop]

theorem popLevel_ends (upward : Upward level visitor) (amid : Amid level l (st.queue l) st) :
    ∃ st', popLevel level visitor ((st.queue l).length + 1) l st = some st' := by
  obtain ⟨n, length⟩ : ∃ n, (st.queue l).length = n := ⟨_, rfl⟩
  rw [length]
  induction n generalizing st with
  | zero =>
    have nothing := List.eq_nil_of_length_eq_zero length
    exact ⟨st, by rw [popLevel,nothing]; rfl⟩
  | succ n ih =>
    have nonempty : st.queue l ≠ [] := fun nothing => by simp [nothing] at length
    have last := List.getLast?_eq_some_getLast nonempty
    obtain ⟨front_queue, popped⟩ := amid.pop last
    have shorter : (st.queue l).dropLast.length = n := by
      rw [List.length_dropLast,length]
      rfl
    rw [popLevel]
    cases entry : (st.queue l).getLast nonempty with
    | none =>
      rw [entry] at last popped
      simp only [last]
      apply ih _ (by rw [front_queue,shorter])
      rw [front_queue]
      exact popped.hole
    | some v =>
      rw [entry] at last popped
      simp only [last]
      obtain ⟨_, next, _, _, kept⟩ := popped.visit upward
      have here : Amid level l ((visitVertex level visitor (setLevel l (st.queue l).dropLast st) v).queue l)
          (visitVertex level visitor (setLevel l (st.queue l).dropLast st) v) := by
        rw [kept.trans front_queue]
        exact next
      let counted : State V := { visitVertex level visitor (setLevel l (st.queue l).dropLast st) v with
        visitCount := (visitVertex level visitor (setLevel l (st.queue l).dropLast st) v).visitCount + 1 }
      have here' : Amid level l (counted.queue l) counted := ⟨here.other, here.here, here.low, here.first, here.last⟩
      exact ih here' ((congrArg List.length (kept.trans front_queue)).trans shorter)

theorem visit_ends (upward : Upward level visitor) (toLevel : ℤ) (sound : Sound level st) :
    ∃ fuel st', visit level visitor fuel toLevel st = some st' := by
  obtain ⟨n, left⟩ : ∃ n, (toLevel + 1 - st.firstLevel).toNat = n := ⟨_, rfl⟩
  induction n generalizing st with
  | zero =>
    refine ⟨1, st, ?_⟩
    rw [visit,if_neg]
    rintro ⟨_, upTo⟩
    omega
  | succ n ih =>
    by_cases more : more toLevel st
    · obtain ⟨next, here⟩ := popLevel_ends upward sound.amid
      have always : Keeps visitor fun _ _ => True := fun _ _ _ _ _ => trivial
      obtain ⟨sound', _, first⟩ := popLevel_rule upward always sound.amid trivial here
      obtain ⟨fuel, st', later⟩ := ih sound' (by omega)
      refine ⟨max (((incrLevel st).queue st.firstLevel).length + 1) fuel + 1, st', ?_⟩
      rw [visit,if_pos more,popLevel_mono (le_max_left _ _) here]
      exact visit_mono (le_max_right _ _) later
    · exact ⟨1, st, by rw [visit,if_neg more]⟩

theorem parallelLoop_ends {threadCount : Nat} (schedule : Schedule V) (positive : 0 < threadCount)
    (upward : Upward level visitor) (toLevel : ℤ) (sound : Sound level st) :
    ∃ fuel st', parallelLoop level visitor threadCount schedule fuel toLevel st = some st' := by
  obtain ⟨n, left⟩ : ∃ n, (toLevel + 1 - st.firstLevel).toNat = n := ⟨_, rfl⟩
  induction n generalizing st with
  | zero =>
    refine ⟨1, st, ?_⟩
    rw [parallelLoop,if_neg]
    rintro ⟨_, upTo⟩
    omega
  | succ n ih =>
    by_cases more : more toLevel st
    · by_cases nothing : st.queue st.firstLevel = []
      · have next : (incrLevel st).firstLevel = st.firstLevel + 1 := rfl
        obtain ⟨fuel, st', later⟩ := ih (sound.incrLevel_of_nil nothing) (by omega)
        exact ⟨fuel + 1, st', by rw [parallelLoop,if_pos more,if_pos nothing,later]⟩
      · have always : Keeps visitor fun _ _ => True := fun _ _ _ _ _ => trivial
        have visited : ∃ next, visitLevelParallel level visitor threadCount schedule st.firstLevel (incrLevel st) =
          some next ∧
            Sound level next ∧ True ∧ next.firstLevel = st.firstLevel + 1 :=
              visitLevelParallel_rule positive upward always sound.amid trivial
        obtain ⟨next, here, sound', _, first⟩ := visited
        obtain ⟨fuel, st', later⟩ := ih sound' (by omega)
        exact ⟨fuel + 1, st', by rw [parallelLoop,if_pos more,if_neg nothing,here,Option.bind_some,later]⟩
    · exact ⟨1, st, by rw [parallelLoop,if_neg more]⟩

theorem visitParallel_ends {threadCount : Nat} (schedule : Schedule V) (positive : 0 < threadCount)
    (upward : Upward level visitor) (toLevel : ℤ) (sound : Sound level st) :
    ∃ fuel st', visitParallel level visitor threadCount schedule fuel toLevel st = some st' := by
  unfold visitParallel
  split
  · split
    · exact visit_ends upward toLevel sound
    · exact parallelLoop_ends schedule positive upward toLevel sound
  · exact ⟨0, st, rfl⟩

end Visits

section Sequential

variable {level : V → ℤ} {visitor : List V → V → List V} {st st' : State V} {l toLevel : ℤ} {fuel : Nat}

/-- While the entries of a level are visited one after the other. The visits may enqueue vertices of any level. -/
structure Popping (level : V → ℤ) (l : ℤ) (st : State V) : Prop where
  count : ∀ l' v, (st.queue l').count (some v) = if st.inQueue v = true ∧ level v = l' then 1 else 0
  first : ∀ v, st.inQueue v = true → level v ≠ l → st.firstLevel ≤ level v
  last : ∀ v, st.inQueue v = true → level v ≤ st.lastLevel

theorem Sound.popping (sound : Sound level st) : Popping level st.firstLevel (incrLevel st) where
  count := sound.count
  first v waits apart := by
    have low := sound.first v waits
    have next : (incrLevel st).firstLevel = st.firstLevel + 1 := rfl
    omega
  last := sound.last

theorem Popping.enqueue (popping : Popping level l st) (w : V) : Popping level l (enqueue level st w) := by
  have one : Effect level (level w - 1) [] [w] st (Bfs.enqueue level st w) := Effect.enqueue (by omega)
  have waits (v : V) : (Bfs.enqueue level st w).inQueue v = true ↔ st.inQueue v = true ∨ v = w := by
    simp [one.inQueue v]
  refine ⟨fun l' v => ?_, fun v mem apart => ?_, fun v mem => ?_⟩
  · rw [one.vertex l' v,popping.count l' v]
    cases flag : st.inQueue v with
    | true => simp [waits,flag]
    | false => simp [waits,flag,and_comm]
  · cases flag : st.inQueue v with
    | true => exact ((one.first _).mp le_rfl).1.trans (popping.first v flag apart)
    | false => exact ((one.first _).mp le_rfl).2 v (by simpa [flag] using (waits v).mp mem) flag
  · cases flag : st.inQueue v with
    | true => exact (popping.last v flag).trans ((one.last _).mp le_rfl).1
    | false => exact ((one.last _).mp le_rfl).2 v (by simpa [flag] using (waits v).mp mem) flag

theorem Popping.enqueueAll (popping : Popping level l st) (vs : List V) :
    Popping level l (vs.foldl (Bfs.enqueue level) st) := by
  induction vs generalizing st with
  | nil => exact popping
  | cons w rest ih => exact ih (popping.enqueue w)

theorem Popping.hole (popping : Popping level l st) (last : (st.queue l).getLast? = some none) :
    Popping level l (setLevel l (st.queue l).dropLast st) := by
  obtain ⟨front, split⟩ := List.getLast?_eq_some_iff.1 last
  refine ⟨fun l' v => ?_, popping.first, popping.last⟩
  rw [queue_setLevel]
  split
  · next here =>
    have before := popping.count l v
    have flag : (setLevel l (st.queue l).dropLast st).inQueue v = st.inQueue v := rfl
    rw [split,List.count_append] at before
    rw [flag,split,List.dropLast_concat,here]
    simpa using before
  · exact popping.count l' v

theorem Popping.visit {v : V} (popping : Popping level l st) (last : (st.queue l).getLast? = some (some v)) :
    let next := visitVertex level visitor (setLevel l (st.queue l).dropLast st) v
    st.inQueue v = true ∧ Popping level l next ∧ next.visited = st.visited ++ [v] ∧
      next.inQueue = afterVisit visitor st.visited st.inQueue v := by
  obtain ⟨front, split⟩ := List.getLast?_eq_some_iff.1 last
  have here := popping.count l v
  rw [split,List.count_append,List.count_singleton_self] at here
  have waits : st.inQueue v = true ∧ level v = l := by
    by_contra fails
    rw [if_neg fails] at here
    omega
  let taken : State V := { setLevel l (st.queue l).dropLast st with
    inQueue := fun other => if other = v then false else st.inQueue other, visited := st.visited ++ [v] }
  have takenPopping : Popping level l taken := by
    have stays : ∀ u, taken.inQueue u = true → st.inQueue u = true := by
      intro u mem
      simp only [taken] at mem
      split at mem
      · cases mem
      · exact mem
    refine ⟨fun l' u => ?_, fun u mem => popping.first u (stays u mem), fun u mem => popping.last u (stays u mem)⟩
    have queue : taken.queue l' = if l' = l then front else st.queue l' := by
      simp only [taken,queue_setLevel,split,List.dropLast_concat]
    have before := popping.count l' u
    have flag : taken.inQueue u = if u = v then false else st.inQueue u := rfl
    rw [queue,flag]
    by_cases isV : u = v
    · subst isV
      rw [if_pos rfl]
      split
      · simpa [waits] using here
      · next apart => simpa [waits.2,Ne.symm apart] using before
    · rw [if_neg isV]
      split
      · next isL =>
        subst isL
        rw [split,List.count_append,List.count_singleton] at before
        simpa [Ne.symm isV] using before
      · exact before
  have next : visitVertex level visitor (setLevel l (st.queue l).dropLast st) v =
    (visitor st.visited v).foldl (Bfs.enqueue level) taken := rfl
  have visited : ∀ (vs : List V) (st : State V), (vs.foldl (Bfs.enqueue level) st).visited = st.visited := by
    intro vs
    induction vs with
    | nil => exact fun _ => rfl
    | cons w rest ih =>
      intro st
      have one : Effect level (level w - 1) [] [w] st (Bfs.enqueue level st w) := Effect.enqueue (by omega)
      exact (ih _).trans (one.visited.trans (List.append_nil _))
  dsimp only
  rw [next]
  refine ⟨waits.1, takenPopping.enqueueAll _, visited _ _, ?_⟩
  funext u
  have flag : taken.inQueue u = if u = v then false else st.inQueue u := rfl
  rw [inQueue_enqueueAll,flag,afterVisit]
  by_cases isV : u = v <;> simp [isV]

variable {inv : List V → (V → Bool) → Prop}

theorem popLevel_sequential (keeps : Keeps visitor inv) (popping : Popping level l st)
    (holds : inv st.visited st.inQueue)
    (run : popLevel level visitor fuel l st = some st') : Sound level st' ∧ inv st'.visited st'.inQueue := by
  induction fuel generalizing st with
  | zero => cases run
  | succ fuel ih =>
    rw [popLevel] at run
    split at run
    · next last =>
      cases Option.some.inj run
      have gone : ∀ v, st'.inQueue v = true → level v ≠ l := by
        intro v waits here
        have count := popping.count l v
        rw [List.getLast?_eq_none_iff.1 last,if_pos ⟨waits, here⟩] at count
        cases count
      exact ⟨⟨popping.count, fun v waits => popping.first v waits (gone v waits), popping.last⟩, holds⟩
    · next last => exact ih (popping.hole last) holds run
    · next v last =>
      have taken : st.inQueue v = true ∧
        Popping level l (visitVertex level visitor (setLevel l (st.queue l).dropLast st) v) ∧
          (visitVertex level visitor (setLevel l (st.queue l).dropLast st) v).visited = st.visited ++ [v] ∧
            (visitVertex level visitor (setLevel l (st.queue l).dropLast st) v).inQueue =
              afterVisit visitor st.visited st.inQueue v :=
        popping.visit last
      obtain ⟨waits, next, visited, inQueue⟩ := taken
      let counted : State V := { visitVertex level visitor (setLevel l (st.queue l).dropLast st) v with
        visitCount := (visitVertex level visitor (setLevel l (st.queue l).dropLast st) v).visitCount + 1 }
      have counted' : Popping level l counted := ⟨next.count, next.first, next.last⟩
      exact ih counted' (keeps.visit holds waits visited inQueue) run

/-- What every visit keeps holds after the visits of one thread, and no vertex up to the level waits any more. -/
theorem visit_sequential (keeps : Keeps visitor inv) (sound : Sound level st) (holds : inv st.visited st.inQueue)
    (run : visit level visitor fuel toLevel st = some st') : Sound level st' ∧ inv st'.visited st'.inQueue ∧
    ¬more toLevel st' := by
  induction fuel generalizing st with
  | zero => cases run
  | succ fuel ih =>
    rw [visit] at run
    split at run
    · obtain ⟨next, here, later⟩ := Option.bind_eq_some_iff.1 run
      have start : inv (incrLevel st).visited (incrLevel st).inQueue := holds
      obtain ⟨sound', holds'⟩ := popLevel_sequential keeps sound.popping start here
      exact ih sound' holds' later
    · next stop =>
      cases run
      exact ⟨sound, holds, stop⟩

end Sequential

end GTPower.Bfs
