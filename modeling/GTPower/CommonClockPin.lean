import GTPower.TwoWalks

/-! The common clock pin of two clock paths. Both paths are walked back to the clock source through one temporary each,
the one at the higher level first, until they are at one pin. A bidirect pin has two vertices with levels of their
own. -/
namespace GTPower.Crpr

section Source
variable {Pin : Type*}

structure Vertex (Pin : Type*) where
  pin : Pin
  isBidirectDriver : Bool
  deriving DecidableEq

structure PathVertex (Pin : Type*) where
  vertex : Vertex Pin
  arrivalIndex : Nat
  deriving DecidableEq

def PathVertex.pin (path : PathVertex Pin) : Pin := path.vertex.pin

/-- Levels, and the previous path of each arrival of a vertex; a null path is `none`. -/
structure Graph (Pin : Type*) where
  level : Vertex Pin → Int
  prevPaths : Vertex Pin → Option (Nat → Option (PathVertex Pin))

namespace Graph
variable (g : Graph Pin)

/-- The outer `none` is the critical error for a vertex without previous paths. -/
def clkPathPrev (path : PathVertex Pin) : Option (Option (PathVertex Pin)) :=
  (g.prevPaths path.vertex).map fun prevs => prevs path.arrivalIndex

end Graph

/-- What a path pointer of the loop points to. -/
inductive Target where
  | passed
  | tmp
  deriving DecidableEq, Repr

/-- One side of the loop: the path that was passed, the temporary and the pointer. -/
structure Side (Pin : Type*) where
  passed : PathVertex Pin
  tmp : Option (PathVertex Pin)
  pointer : Option Target

namespace Side

def start (path : PathVertex Pin) : Side Pin := ⟨path, none, some .passed⟩

/-- The path behind the pointer, `none` for a null pointer. -/
def current (side : Side Pin) : Option (PathVertex Pin) :=
  match side.pointer with
  | none => none
  | some .passed => some side.passed
  | some .tmp => side.tmp

/-- The vertex and the arrival index are read before the temporary is written, which may be the path itself. -/
def back (g : Graph Pin) (side : Side Pin) : Option (Side Pin) := do
  let path ← side.current
  let tmp ← g.clkPathPrev path
  return { side with tmp := tmp, pointer := if tmp.isSome then some .tmp else none }

end Side

variable [DecidableEq Pin] (g : Graph Pin)

/-- The loop, with both levels read before either side moves; `none` when the rounds run out or at a critical error. -/
def walkBack : Nat → Side Pin → Side Pin → Option (Side Pin × Side Pin)
  | 0, _, _ => none
  | fuel + 1, src, tgt =>
    match src.current, tgt.current with
    | some srcPath, some tgtPath =>
      if srcPath.pin = tgtPath.pin then some (src, tgt)
      else
        (if g.level tgtPath.vertex ≤ g.level srcPath.vertex then src.back g else some src).bind fun src =>
          (if g.level srcPath.vertex ≤ g.level tgtPath.vertex then tgt.back g else some tgt).bind fun tgt =>
            walkBack fuel src tgt
    | _, _ => some (src, tgt)

/-- The paths the loop of `findCrpr` ends with, of a common pin; none when one of the pointers is null. -/
def findCommon (fuel : Nat) (srcClkPath tgtClkPath : PathVertex Pin) :
    Option (Option (PathVertex Pin × PathVertex Pin)) :=
  (walkBack g fuel (Side.start srcClkPath) (Side.start tgtClkPath)).map fun ends =>
    ends.1.current.bind fun srcPath => ends.2.current.map fun tgtPath => (srcPath, tgtPath)

end Source

section Paths
variable {Pin : Type*} {g : Graph Pin}

/-- A clock path with the paths behind it, down to the one without a previous path, with levels that fall strictly. -/
inductive ClkPath (g : Graph Pin) : PathVertex Pin → List (PathVertex Pin) → Prop where
  | source (first : g.clkPathPrev path = some none) : ClkPath g path [path]
  | step (before : g.clkPathPrev path = some (some prev)) (lower : g.level prev.vertex < g.level path.vertex)
    (rest : ClkPath g prev paths) : ClkPath g path (path :: paths)

theorem ClkPath.head (walk : ClkPath g path paths) : ∃ rest, paths = path :: rest := by
  cases walk with
  | source => exact ⟨[], rfl⟩
  | step => exact ⟨_, rfl⟩

theorem ClkPath.le_head (walk : ClkPath g path paths) :
    ∀ other ∈ paths, g.level other.vertex ≤ g.level path.vertex := by
  induction walk with
  | source =>
    intro other mem
    rw [List.mem_singleton.mp mem]
  | step _ lower _ ih =>
    intro other mem
    rcases List.mem_cons.mp mem with rfl | later
    · exact Int.le_refl _
    · exact Int.le_of_lt (Int.lt_of_le_of_lt (ih other later) lower)

theorem ClkPath.falling (walk : ClkPath g path paths) : TwoWalks.Falling (fun path => g.level path.vertex) paths := by
  induction walk with
  | source => exact List.pairwise_singleton _ _
  | step _ lower rest ih =>
    exact List.pairwise_cons.mpr ⟨fun other mem => Int.lt_of_le_of_lt (rest.le_head other mem) lower, ih⟩

inductive Side.Left (g : Graph Pin) (side : Side Pin) : List (PathVertex Pin) → Prop where
  | past (null : side.current = none) : side.Left g []
  | here (at' : side.current = some path) (walk : ClkPath g path paths) : side.Left g paths

theorem Side.left_start (walk : ClkPath g path paths) : (Side.start path).Left g paths := Side.Left.here rfl walk

/-- Writing the temporary the pointer may point to leaves the rest of the path. -/
theorem Side.left_back {side : Side Pin} (left : side.Left g (path :: paths)) :
    ∃ side', side.back g = some side' ∧ side'.Left g paths := by
  cases left with
  | here at' walk =>
    cases walk with
    | source first =>
      refine ⟨{ side with tmp := none, pointer := none }, ?_, Side.Left.past rfl⟩
      simp [Side.back,at',first]
    | @step _ prev _ before _ rest =>
      refine ⟨{ side with tmp := some prev, pointer := some .tmp }, ?_, Side.Left.here rfl rest⟩
      simp [Side.back,at',before]

theorem Side.current_of_left {side : Side Pin} (left : side.Left g paths) : side.current = paths.head? := by
  cases left with
  | past null => exact null
  | here at' walk =>
    obtain ⟨rest, rfl⟩ := walk.head
    exact at'

end Paths

section Common
variable {Pin : Type*} [DecidableEq Pin] {g : Graph Pin}

/-- The loop walks the two paths down side by side. -/
theorem walkBack_eq (fuel : Nat) (src tgt : Side Pin) (srcs tgts : List (PathVertex Pin)) (left : src.Left g srcs)
    (left' : tgt.Left g tgts) (enough : srcs.length + tgts.length < fuel) :
    (walkBack g fuel src tgt).map (fun ends =>
      ends.1.current.bind fun srcPath => ends.2.current.map fun tgtPath => (srcPath, tgtPath)) =
        some (TwoWalks.meet PathVertex.pin (fun path => g.level path.vertex) srcs tgts) := by
  induction fuel generalizing src tgt srcs tgts with
  | zero => omega
  | succ fuel ih =>
    have at' := Side.current_of_left left
    have at'' := Side.current_of_left left'
    cases srcs with
    | nil =>
      rw [walkBack,at',TwoWalks.meet]
      simp [at']
    | cons srcPath srcs =>
      cases tgts with
      | nil =>
        rw [walkBack,at',at'',TwoWalks.meet]
        simp [at'']
      | cons tgtPath tgts =>
        obtain ⟨src', back, rest⟩ := Side.left_back left
        obtain ⟨tgt', back', rest'⟩ := Side.left_back left'
        rw [walkBack,at',at'',TwoWalks.meet]
        dsimp only [List.head?_cons]
        simp only [List.length_cons] at enough
        split
        case isTrue same => simp [at',at'']
        case isFalse differ =>
          rcases Int.lt_trichotomy (g.level srcPath.vertex) (g.level tgtPath.vertex) with less | level | greater
          · rw [if_neg (Int.not_le.mpr less),if_pos less,Option.bind_some,if_pos (Int.le_of_lt less),back',
              Option.bind_some]
            exact ih _ _ _ _ left rest' (by simp only [List.length_cons]; omega)
          · rw [if_pos (Int.le_of_eq level.symm),if_neg (Int.not_lt.mpr (Int.le_of_eq level.symm)),
              if_neg (Int.not_lt.mpr (Int.le_of_eq level)),back,Option.bind_some,if_pos (Int.le_of_eq level),back',
              Option.bind_some]
            exact ih _ _ _ _ rest rest' (by omega)
          · rw [if_pos (Int.le_of_lt greater),if_neg (Int.lt_asymm greater),if_pos greater,back,Option.bind_some,
              if_neg (Int.not_le.mpr greater),Option.bind_some]
            exact ih _ _ _ _ rest left' (by simp only [List.length_cons]; omega)

/-- The pair is of the shared pin that is farthest from the source on both paths, and there is none only without a
shared pin. -/
def FarthestShared (g : Graph Pin) (srcs tgts : List (PathVertex Pin))
    (common : Option (PathVertex Pin × PathVertex Pin)) : Prop :=
  (∀ src tgt, common = some (src, tgt) → src ∈ srcs ∧ tgt ∈ tgts ∧ src.pin = tgt.pin ∧
    ∀ c ∈ srcs, ∀ d ∈ tgts, c.pin = d.pin → g.level c.vertex ≤ g.level src.vertex ∧
      g.level d.vertex ≤ g.level tgt.vertex) ∧
  (common = none → ∀ c ∈ srcs, ∀ d ∈ tgts, c.pin ≠ d.pin)

/-- The loop ends with a pair that does not depend on the order of the paths, at a shared pin, and not past a pin that
both paths have at one level. Where they have all their shared pins at one level each it ends at the farthest of
them. -/
theorem findCommon_farthest (walk : ClkPath g srcClkPath srcs) (walk' : ClkPath g tgtClkPath tgts) :
    ∃ common, (∀ fuel, srcs.length + tgts.length < fuel → findCommon g fuel srcClkPath tgtClkPath = some common ∧
        findCommon g fuel tgtClkPath srcClkPath = some (common.map Prod.swap)) ∧
      (∀ src tgt, common = some (src, tgt) → src ∈ srcs ∧ tgt ∈ tgts ∧ src.pin = tgt.pin) ∧
      (∀ c ∈ srcs, ∀ d ∈ tgts, c.pin = d.pin → g.level c.vertex = g.level d.vertex →
        ∃ src tgt, common = some (src, tgt) ∧
        g.level c.vertex ≤ g.level src.vertex ∧ g.level d.vertex ≤ g.level tgt.vertex) ∧
      ((∀ c ∈ srcs, ∀ d ∈ tgts, c.pin = d.pin → g.level c.vertex = g.level d.vertex) →
        FarthestShared g srcs tgts common) := by
  have shared : ∀ src tgt, TwoWalks.meet PathVertex.pin (fun path => g.level path.vertex) srcs tgts = some (src, tgt) →
      src ∈ srcs ∧ tgt ∈ tgts ∧ src.pin = tgt.pin := fun src tgt => TwoWalks.mem_of_meet srcs tgts
  refine ⟨TwoWalks.meet PathVertex.pin (fun path => g.level path.vertex) srcs tgts, fun fuel enough => ⟨?_, ?_⟩,
    shared, ?_, ?_⟩
  · exact walkBack_eq fuel _ _ _ _ (Side.left_start walk) (Side.left_start walk') enough
  · rw [← TwoWalks.meet_swap]
    exact walkBack_eq fuel _ _ _ _ (Side.left_start walk') (Side.left_start walk) (by omega)
  · exact fun c mem d mem' => TwoWalks.meet_of_level srcs tgts walk.falling walk'.falling mem mem'
  · intro aligned
    obtain ⟨highest, without⟩ := TwoWalks.meet_highest walk.falling walk'.falling aligned
    refine ⟨fun src tgt common => ?_, without⟩
    obtain ⟨left, right, same⟩ := shared src tgt common
    exact ⟨left, right, same, highest src tgt common⟩

/-- A clock port 0 that drives the load of the bidirect pin 1 and the input 4, and two cells: from the load of pin 1 to
the output 2, and from the input 4 to the driver of pin 1. The clock pins 3 and 6 are behind the output, pin 5 behind
the driver. -/
def bidirectGraph : Graph Nat where
  level vertex := match vertex.pin with
    | 0 => 0
    | 1 => if vertex.isBidirectDriver then 20 else 10
    | 2 => 20
    | 4 => 10
    | _ => 30
  prevPaths vertex := some fun _ => match vertex.pin with
    | 0 => none
    | 1 => if vertex.isBidirectDriver then some ⟨⟨4, false⟩, 0⟩ else some ⟨⟨0, false⟩, 0⟩
    | 2 => some ⟨⟨1, false⟩, 0⟩
    | 4 => some ⟨⟨0, false⟩, 0⟩
    | 5 => some ⟨⟨1, true⟩, 0⟩
    | _ => some ⟨⟨2, false⟩, 0⟩

def onLoads (pin : Nat) : PathVertex Nat := ⟨⟨pin, false⟩, 0⟩

theorem clkPath_output (pin : Nat) (sink : pin = 3 ∨ pin = 6) :
    ClkPath bidirectGraph (onLoads pin) [onLoads pin, onLoads 2, onLoads 1, onLoads 0] := by
  have rest : ClkPath bidirectGraph (onLoads 2) [onLoads 2, onLoads 1, onLoads 0] :=
    ClkPath.step rfl (by decide) (ClkPath.step rfl (by decide) (ClkPath.source rfl))
  rcases sink with rfl | rfl
  · exact ClkPath.step rfl (by decide) rest
  · exact ClkPath.step rfl (by decide) rest

/-- Two clock pins behind one output. -/
theorem findCommon_farthest_output : findCommon bidirectGraph 9 (onLoads 3) (onLoads 6) =
    some (some (onLoads 2, onLoads 2)) ∧
    FarthestShared bidirectGraph [onLoads 3, onLoads 2, onLoads 1, onLoads 0] [onLoads 6, onLoads 2,
    onLoads 1, onLoads 0]
      (some (onLoads 2, onLoads 2)) := by
  obtain ⟨common, found, -, -, farthest⟩ :=
    findCommon_farthest (clkPath_output 3 (Or.inl rfl)) (clkPath_output 6 (Or.inr rfl))
  have run : findCommon bidirectGraph 9 (onLoads 3) (onLoads 6) = some (some (onLoads 2, onLoads 2)) := by decide
  have same := Option.some.inj ((found 9 (by decide)).1.symm.trans run)
  rw [same] at farthest
  exact ⟨run, farthest (by decide)⟩

/-- One path has the load of the bidirect pin, the other its driver at a higher level. The loop ends at the port. -/
theorem findCommon_bidirect :
    ¬ ∀ (g : Graph Nat) (srcClkPath tgtClkPath : PathVertex Nat) (srcs tgts : List (PathVertex Nat)),
    ClkPath g srcClkPath srcs → ClkPath g tgtClkPath tgts →
    srcs.getLast?.map PathVertex.vertex = tgts.getLast?.map PathVertex.vertex →
      ∃ common, (∀ fuel, srcs.length + tgts.length < fuel → findCommon g fuel srcClkPath tgtClkPath = some common) ∧
        FarthestShared g srcs tgts common := by
  intro claimed
  have driver : ClkPath bidirectGraph (onLoads 5) [onLoads 5, ⟨⟨1, true⟩, 0⟩, onLoads 4, onLoads 0] :=
    ClkPath.step rfl (by decide) (ClkPath.step rfl (by decide) (ClkPath.step rfl (by decide) (ClkPath.source rfl)))
  obtain ⟨common, found, farthest, -⟩ := claimed bidirectGraph _ _ _ _ (clkPath_output 3 (Or.inl rfl)) driver rfl
  have run : findCommon bidirectGraph 9 (onLoads 3) (onLoads 5) = some (some (onLoads 0, onLoads 0)) := by decide
  have same : common = some (onLoads 0, onLoads 0) := Option.some.inj ((found 9 (by decide)).symm.trans run)
  have port := (farthest _ _ same).2.2.2 (onLoads 1) (by decide) ⟨⟨1, true⟩, 0⟩ (by decide) rfl
  exact absurd port.1 (by decide)

end Common
end GTPower.Crpr
