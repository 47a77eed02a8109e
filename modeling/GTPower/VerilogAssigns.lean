import GTPower.FuncExpr
import GTPower.MergeForest

/-! Linking the body of a module: pins are connected to nets by name, and assigns merge nets. A merged net is kept and
points to the net it was merged into. -/
namespace GTPower
open MergeForest (Ends follow)

section Source

abbrev NetName := List Char

def zeroNetName : NetName := ['z', 'e', 'r', 'o', '_']
def oneNetName : NetName := ['o', 'n', 'e', '_']

/-- The nets of an assign. Bits of a constant are from the least significant one on. -/
inductive VerilogNet where
  | scalar (name : NetName)
  | bitSelect (busName : NetName) (index : Int)
  | partSelect (busName : NetName) (fromIndex toIndex : Int)
  | constant (value : List Bool)
  | concat (nets : List VerilogNet)

abbrev BusDcls := NetName → Option (Int × Int)

def verilogBusBitName (busName : NetName) (index : Int) : NetName := busName ++ '[' :: (toString index).toList ++ [']']

def busNames (busName : NetName) (fromIndex toIndex : Int) : List NetName :=
  (List.range ((toIndex - fromIndex).natAbs + 1)).map fun i =>
    verilogBusBitName busName (if fromIndex < toIndex then fromIndex + i else fromIndex - i)

namespace VerilogNet

mutual
def size (dcls : BusDcls) : VerilogNet → Nat
  | scalar name => ((dcls name).map fun bounds => (bounds.2 - bounds.1).natAbs + 1).getD 1
  | bitSelect .. => 1
  | partSelect _ fromIndex toIndex => (toIndex - fromIndex).natAbs + 1
  | constant value => value.length
  | concat nets => sizes dcls nets

def sizes (dcls : BusDcls) : List VerilogNet → Nat
  | [] => 0
  | net :: rest => net.size dcls + sizes dcls rest
end

mutual
def names (dcls : BusDcls) : VerilogNet → List NetName
  | scalar name => ((dcls name).map fun bounds => busNames name bounds.1 bounds.2).getD [name]
  | bitSelect busName index => [verilogBusBitName busName index]
  | partSelect busName fromIndex toIndex => busNames busName fromIndex toIndex
  | constant value => value.reverse.map fun bit => if bit then oneNetName else zeroNetName
  | concat nets => allNames dcls nets

def allNames (dcls : BusDcls) : List VerilogNet → List NetName
  | [] => []
  | net :: rest => net.names dcls ++ allNames dcls rest
end

def name : VerilogNet → NetName
  | scalar name => name
  | bitSelect busName index => verilogBusBitName busName index
  | partSelect busName .. => busName
  | _ => []

end VerilogNet

structure VerilogAssign where
  lhs : VerilogNet
  rhs : VerilogNet

inductive VerilogDclArg where
  | net (name : NetName)
  | assign (stmt : VerilogAssign)

def VerilogDclArg.netName : VerilogDclArg → NetName
  | net name => name
  | assign stmt => stmt.lhs.name

/-- Statements of a body. An instance is given by its pins with the names they connect to; `supply` is the value of a
ground or power declaration. -/
inductive VerilogStmt (π : Type) where
  | inst (pins : List (π × NetName))
  | declaration (supply : Option LogicValue) (args : List VerilogDclArg)
  | assign (assign : VerilogAssign)

/-- A module as it is linked for an instance: the terminals of its ports come before its body. -/
structure VerilogModule (π τ : Type) where
  dcls : BusDcls
  ports : List (τ × NetName)
  stmts : List (VerilogStmt π)

end Source

section Network
variable {π τ : Type} [DecidableEq π]

/-- Nets, numbered as they are made, and the binding table of the instance. -/
structure LinkState (π τ : Type) where
  nNet : Nat
  hierarchyLevel : Nat → Nat
  pins : Nat → List π
  terms : Nat → List τ
  mergedInto : Nat → Option Nat
  pinNet : π → Option Nat
  constantNets : LogicValue → List Nat
  map : NetName → Option Nat

namespace LinkState

def init : LinkState π τ :=
  ⟨0, fun _ => 0, fun _ => [], fun _ => [], fun _ => none, fun _ => none, fun _ => [], fun _ => none⟩

variable (st : LinkState π τ)

/-- `none` where the loop over the pointers never ends. -/
def find (name : NetName) : Option (Option Nat) :=
  match st.map name with
  | none => some none
  | some net => (follow st.mergedInto st.nNet net).map some

def addConstantNet (net : Nat) (value : LogicValue) : LinkState π τ :=
  { st with constantNets := Function.update st.constantNets value (net :: st.constantNets value) }

def makeNet (level : Nat) (name : NetName) : LinkState π τ :=
  { st with
    nNet := st.nNet + 1
    hierarchyLevel := Function.update st.hierarchyLevel st.nNet level
    map := Function.update st.map name (some st.nNet) }

def ensureNetBinding (level : Nat) (name : NetName) : Option (LinkState π τ × Nat) :=
  (st.find name).map fun
    | some net => (st, net)
    | none =>
      let made := st.makeNet level name
      let made := if name = zeroNetName then made.addConstantNet st.nNet .zero else made
      (if name = oneNetName then made.addConstantNet st.nNet .one else made, st.nNet)

/-- Pins and terminals are pushed to the front of the lists of the other net one by one; then the own lists are
cleared. -/
def mergeInto (net into : Nat) : LinkState π τ :=
  { st with
    pins := Function.update (Function.update st.pins into ((st.pins net).reverse ++ st.pins into)) net []
    terms := Function.update (Function.update st.terms into ((st.terms net).reverse ++ st.terms into)) net []
    pinNet := fun pin => if pin ∈ st.pins net then some into else st.pinNet pin
    mergedInto := Function.update st.mergedInto net (some into) }

def mergeNames (level : Nat) (lhsName rhsName : NetName) : Option (LinkState π τ) := do
  let (st, lhsNet) ← st.ensureNetBinding level lhsName
  let (st, rhsNet) ← st.ensureNetBinding level rhsName
  return if st.hierarchyLevel rhsNet ≤ st.hierarchyLevel lhsNet then st.mergeInto lhsNet rhsNet
    else st.mergeInto rhsNet lhsNet

def mergeAssignNet (level : Nat) (dcls : BusDcls) (assign : VerilogAssign) : Option (LinkState π τ) :=
  if assign.lhs.size dcls = assign.rhs.size dcls then
    ((assign.lhs.names dcls).zip (assign.rhs.names dcls)).foldlM (fun st pair => st.mergeNames level pair.1 pair.2) st
  else some st

/-- A pin leaves the net it is connected to. -/
def connect (level : Nat) (pin : π) (name : NetName) : Option (LinkState π τ) :=
  (st.ensureNetBinding level name).map fun (st, net) =>
    let pins := match st.pinNet pin with
      | none => st.pins
      | some prevNet => Function.update st.pins prevNet ((st.pins prevNet).erase pin)
    { st with
      pins := Function.update pins net (pin :: pins net)
      pinNet := Function.update st.pinNet pin (some net) }

def makeTerm (level : Nat) (term : τ) (name : NetName) : Option (LinkState π τ) :=
  (st.ensureNetBinding level name).map fun (st, net) =>
    { st with terms := Function.update st.terms net (term :: st.terms net) }

def addSupply (level : Nat) (name : NetName) (value : LogicValue) : Option (LinkState π τ) :=
  (st.ensureNetBinding level name).map fun (st, net) => st.addConstantNet net value

def declare (level : Nat) (dcls : BusDcls) (supply : Option LogicValue) (arg : VerilogDclArg) :
    Option (LinkState π τ) := do
  let st ← match arg with
    | .net _ => some st
    | .assign assign => st.mergeAssignNet level dcls assign
  match supply with
  | none => some st
  | some value => st.addSupply level arg.netName value

def linkStmt (level : Nat) (dcls : BusDcls) : VerilogStmt π → Option (LinkState π τ)
  | .inst pins => pins.foldlM (fun st pin => st.connect level pin.1 pin.2) st
  | .declaration supply args => args.foldlM (fun st arg => st.declare level dcls supply arg) st
  | .assign assign => st.mergeAssignNet level dcls assign

def link (level : Nat) (module : VerilogModule π τ) : Option (LinkState π τ) := do
  let st ← module.ports.foldlM (fun st port => st.makeTerm level port.1 port.2) (init : LinkState π τ)
  module.stmts.foldlM (fun st stmt => st.linkStmt level module.dcls stmt) st

/-- The name is bound to the net that survives. -/
def Survives (name : NetName) (root : Nat) : Prop := ∃ net, st.map name = some net ∧ Ends st.mergedInto net root

def IsConstant (net : Nat) : Prop := ∃ value, net ∈ st.constantNets value

end LinkState
end Network

section Steps
variable {π τ : Type}

inductive LinkOp (π τ : Type) where
  | makeTerm (term : τ) (name : NetName)
  | connect (pin : π) (name : NetName)
  | mergeNames (lhsName rhsName : NetName)
  | addSupply (name : NetName) (value : LogicValue)

variable [DecidableEq π]

def LinkOp.run (level : Nat) (st : LinkState π τ) : LinkOp π τ → Option (LinkState π τ)
  | .makeTerm term name => st.makeTerm level term name
  | .connect pin name => st.connect level pin name
  | .mergeNames lhsName rhsName => st.mergeNames level lhsName rhsName
  | .addSupply name value => st.addSupply level name value

def VerilogAssign.ops (dcls : BusDcls) (assign : VerilogAssign) : List (LinkOp π τ) :=
  if assign.lhs.size dcls = assign.rhs.size dcls then
    ((assign.lhs.names dcls).zip (assign.rhs.names dcls)).map fun pair => .mergeNames pair.1 pair.2
  else []

def VerilogDclArg.ops (dcls : BusDcls) (supply : Option LogicValue) (arg : VerilogDclArg) : List (LinkOp π τ) :=
  (match arg with
    | .net _ => []
    | .assign stmt => stmt.ops dcls) ++
  (supply.map fun value => .addSupply arg.netName value).toList

def VerilogStmt.ops (dcls : BusDcls) : VerilogStmt π → List (LinkOp π τ)
  | .inst pins => pins.map fun pin => .connect pin.1 pin.2
  | .declaration supply args => args.flatMap (VerilogDclArg.ops dcls supply)
  | .assign stmt => stmt.ops dcls

def VerilogModule.ops (module : VerilogModule π τ) : List (LinkOp π τ) :=
  module.ports.map (fun port => .makeTerm port.1 port.2) ++ module.stmts.flatMap (VerilogStmt.ops module.dcls)

def runOps (level : Nat) (ops : List (LinkOp π τ)) (st : LinkState π τ) : Option (LinkState π τ) :=
  ops.foldlM (LinkOp.run level) st

def VerilogModule.linkSteps (level : Nat) (module : VerilogModule π τ) (count : Nat) : Option (LinkState π τ) :=
  runOps level (module.ops.take count) .init

theorem runOps_append (level : Nat) (ops ops' : List (LinkOp π τ)) (st : LinkState π τ) :
    runOps level (ops ++ ops') st = (runOps level ops st).bind (runOps level ops') := List.foldlM_append

theorem runOps_map {β : Type} (level : Nat) (op : β → LinkOp π τ) (l : List β) (st : LinkState π τ) :
    l.foldlM (fun st x => (op x).run level st) st = runOps level (l.map op) st := by
  rw [runOps,List.foldlM_map]

theorem runOps_flatMap {β : Type} (level : Nat) {f : LinkState π τ → β → Option (LinkState π τ)}
    {ops : β → List (LinkOp π τ)} (same : ∀ st x, f st x = runOps level (ops x) st) (l : List β) (st : LinkState π τ) :
    l.foldlM f st = runOps level (l.flatMap ops) st := by
  induction l generalizing st with
  | nil => rfl
  | cons x rest ih =>
    rw [List.foldlM_cons,List.flatMap_cons,runOps_append,same]
    exact congrArg (Option.bind (runOps level (ops x) st)) (funext ih)

theorem mergeAssignNet_ops (level : Nat) (dcls : BusDcls) (assign : VerilogAssign) (st : LinkState π τ) :
    st.mergeAssignNet level dcls assign = runOps level (assign.ops dcls) st := by
  unfold LinkState.mergeAssignNet VerilogAssign.ops
  split
  · exact runOps_map level (fun pair : NetName × NetName => .mergeNames pair.1 pair.2) _ st
  · rfl

theorem declare_ops (level : Nat) (dcls : BusDcls) (supply : Option LogicValue) (arg : VerilogDclArg)
    (st : LinkState π τ) :
    st.declare level dcls supply arg = runOps level (arg.ops dcls supply) st := by
  have single : ∀ (value : LogicValue) (st : LinkState π τ), runOps level [.addSupply arg.netName value] st =
      st.addSupply level arg.netName value := by
    intro value st
    simp [runOps,LinkOp.run]
  unfold LinkState.declare VerilogDclArg.ops
  rw [runOps_append]
  cases arg with
  | net name =>
    cases supply with
    | none => rfl
    | some value => exact (single value st).symm
  | assign stmt =>
    dsimp only
    rw [mergeAssignNet_ops]
    refine congrArg (Option.bind (runOps level (stmt.ops dcls) st)) (funext fun st => ?_)
    cases supply with
    | none => rfl
    | some value => exact (single value st).symm

theorem linkStmt_ops (level : Nat) (dcls : BusDcls) (stmt : VerilogStmt π) (st : LinkState π τ) :
    st.linkStmt level dcls stmt = runOps level (stmt.ops dcls) st := by
  cases stmt with
  | inst pins => exact runOps_map level (fun pin : π × NetName => .connect pin.1 pin.2) pins st
  | declaration supply args => exact runOps_flatMap level (fun st arg => declare_ops level dcls supply arg st) args st
  | assign stmt => exact mergeAssignNet_ops level dcls stmt st

theorem link_eq (level : Nat) (module : VerilogModule π τ) :
    LinkState.link level module = module.linkSteps level module.ops.length := by
  rw [VerilogModule.linkSteps,List.take_length,VerilogModule.ops,runOps_append,← runOps_map]
  exact congrArg (Option.bind _) (funext fun st =>
    runOps_flatMap level (fun st stmt => linkStmt_ops level module.dcls stmt st) _ st)

end Steps

section View
variable {π τ : Type}

structure LinkView (π τ : Type) where
  mentioned : NetName → Prop
  assigned : NetName → NetName → Prop
  constant : NetName → Prop
  connected : π → NetName → Prop
  terminal : τ → NetName → Prop

namespace LinkView

/-- Before any step the names of the constants are known to be constants. -/
def init : LinkView π τ :=
  ⟨fun _ => False, fun _ _ => False, fun name => name = zeroNetName ∨ name = oneNetName, fun _ _ =>
    False, fun _ _ => False⟩

def mention (view : LinkView π τ) (name : NetName) : LinkView π τ :=
  { view with mentioned := fun other => view.mentioned other ∨ other = name }

/-- A pin is connected to the name it was connected to last. -/
def step (view : LinkView π τ) : LinkOp π τ → LinkView π τ
  | .makeTerm term name =>
    { view.mention name with terminal := fun term' other => view.terminal term' other ∨ (term' = term ∧ other = name) }
  | .connect pin name => { view.mention name with
      connected := fun pin' other => (pin' = pin ∧ other = name) ∨ (pin' ≠ pin ∧ view.connected pin' other) }
  | .mergeNames lhsName rhsName => { (view.mention lhsName).mention rhsName with
      assigned := fun a b => view.assigned a b ∨ (a = lhsName ∧ b = rhsName) }
  | .addSupply name _ => { view.mention name with constant := fun other => view.constant other ∨ other = name }

def of (ops : List (LinkOp π τ)) : LinkView π τ := ops.foldl step init

def Related (view : LinkView π τ) : NetName → NetName → Prop := Relation.EqvGen view.assigned

/-- A constant or supply is related to the name. -/
def HasConstant (view : LinkView π τ) (name : NetName) : Prop := ∃ other, view.constant other ∧ view.Related other name

/-- An assign relates names that are not yet related, and leaves the constants on its right side. -/
def Fits (view : LinkView π τ) : LinkOp π τ → Prop
  | .mergeNames lhsName rhsName => ¬ view.Related lhsName rhsName ∧
    (view.HasConstant lhsName → view.HasConstant rhsName)
  | _ => True

structure Linked (view : LinkView π τ) (st : LinkState π τ) : Prop where
  survives : ∀ name, view.mentioned name → ∃ root, st.Survives name root
  same : ∀ a b root root', view.mentioned a → view.mentioned b → st.Survives a root → st.Survives b root' →
    (root = root' ↔ view.Related a b)
  pins : ∀ pin name, view.connected pin name → ∃ root, st.Survives name root ∧ pin ∈ st.pins root
  terms : ∀ term name, view.terminal term name → ∃ root, st.Survives name root ∧ term ∈ st.terms root
  constants : ∀ name root, view.mentioned name → st.Survives name root →
    (st.IsConstant root ↔ ∃ other, view.mentioned other ∧ view.constant other ∧ st.Survives other root)

/-- Besides: every net of the table is at the level, and the ranges of the numbers hold. -/
structure Inv (level : Nat) (view : LinkView π τ) (st : LinkState π τ) : Prop where
  linked : view.Linked st
  leveled : ∀ net < st.nNet, st.hierarchyLevel net = level
  bound : ∀ name net, st.map name = some net → net < st.nNet
  merged : ∀ net next, st.mergedInto net = some next → net < st.nNet ∧ next < st.nNet
  constantNets : ∀ value, ∀ net ∈ st.constantNets value, net < st.nNet
  mapped : ∀ name, view.mentioned name ↔ (st.map name).isSome
  assigned : ∀ a b, view.assigned a b → view.mentioned a ∧ view.mentioned b
  constant : ∀ name, view.constant name → view.mentioned name ∨ name = zeroNetName ∨ name = oneNetName
  zeroOne : view.constant zeroNetName ∧ view.constant oneNetName

end LinkView

theorem LinkState.Survives.unique {st : LinkState π τ} (survives : st.Survives name root)
    (survives' : st.Survives name root') :
    root = root' := by
  obtain ⟨net, bound, ends⟩ := survives
  obtain ⟨net', bound', ends'⟩ := survives'
  obtain rfl := Option.some.inj (bound.symm.trans bound')
  exact ends.unique ends'

namespace LinkView.Inv
variable {level : Nat} {view : LinkView π τ} {st : LinkState π τ}

theorem ends_lt (inv : Inv level view st) (ends : Ends st.mergedInto net root) (below : net < st.nNet) :
    root < st.nNet := by
  obtain ⟨path, walk⟩ := ends
  induction walk with
  | final _ => exact below
  | onward points _ ih => exact ih (inv.merged _ _ points).2

theorem survives_lt (inv : Inv level view st) (survives : st.Survives name root) : root < st.nNet := by
  obtain ⟨net, bound, ends⟩ := survives
  exact inv.ends_lt ends (inv.bound name net bound)

theorem mentioned_of_survives (inv : Inv level view st) (survives : st.Survives name root) : view.mentioned name := by
  obtain ⟨net, bound, -⟩ := survives
  exact (inv.mapped name).mpr (by rw [bound]; rfl)

theorem find_survives (inv : Inv level view st) (survives : st.Survives name root) :
    st.find name = some (some root) := by
  obtain ⟨net, bound, ends⟩ := survives
  have closed : ∀ node ∈ List.range st.nNet, ∀ next, st.mergedInto node = some next → next ∈ List.range st.nNet :=
    fun node _ next points => List.mem_range.mpr (inv.merged node next points).2
  have found := (MergeForest.follow_iff (List.range st.nNet) closed (List.mem_range.mpr (inv.bound name net bound))).mpr
    ends
  rw [List.length_range] at found
  simp only [LinkState.find,bound,found,Option.map_some]

theorem find_new (inv : Inv level view st) (new : ¬ view.mentioned name) : st.find name = some none := by
  have unbound : st.map name = none := by simpa [inv.mapped] using new
  simp only [LinkState.find,unbound]

theorem related_mentioned (inv : Inv level view st) (related : view.Related a b) (mentioned : view.mentioned b) :
    view.mentioned a := by
  rcases MergeForest.eqvGen_mentioned inv.assigned related with rfl | ⟨here, -⟩
  · exact mentioned
  · exact here

theorem same_iff (inv : Inv level view st) (left : st.Survives a root) (right : st.Survives b root') : root = root' ↔
    view.Related a b :=
  inv.linked.same a b root root' (inv.mentioned_of_survives left) (inv.mentioned_of_survives right) left right

theorem isConstant_iff (inv : Inv level view st) (survives : st.Survives name root) : st.IsConstant root ↔
    view.HasConstant name := by
  have mentioned := inv.mentioned_of_survives survives
  rw [inv.linked.constants name root mentioned survives]
  constructor
  · rintro ⟨other, -, constant, survives'⟩
    exact ⟨other, constant, (inv.same_iff survives' survives).mp rfl⟩
  · rintro ⟨other, constant, related⟩
    have mentioned' := inv.related_mentioned related mentioned
    obtain ⟨root', survives'⟩ := inv.linked.survives other mentioned'
    obtain rfl := (inv.same_iff survives' survives).mpr related
    exact ⟨other, mentioned', constant, survives'⟩

end LinkView.Inv

theorem LinkView.mention_eq {view : LinkView π τ} (mentioned : view.mentioned name) : view.mention name = view := by
  have same : (fun other => view.mentioned other ∨ other = name) = view.mentioned := by
    funext other
    refine propext ⟨?_, Or.inl⟩
    rintro (old | rfl)
    · exact old
    · exact mentioned
  rw [LinkView.mention,same]


theorem LinkState.isConstant_add (st : LinkState π τ) (net net' : Nat) (value : LogicValue) :
    (st.addConstantNet net value).IsConstant net' ↔ st.IsConstant net' ∨ net' = net := by
  constructor
  · rintro ⟨value', mem⟩
    by_cases same : value' = value
    · subst same
      simp only [addConstantNet,Function.update_self,List.mem_cons] at mem
      exact mem.symm.imp (fun old => ⟨value', old⟩) id
    · simp only [addConstantNet,Function.update_of_ne same] at mem
      exact Or.inl ⟨value', mem⟩
  · rintro (⟨value', mem⟩ | rfl)
    · refine ⟨value', ?_⟩
      by_cases same : value' = value
      · subst same
        simp [addConstantNet,mem]
      · simpa [addConstantNet,Function.update_of_ne same] using mem
    · exact ⟨value, by simp [addConstantNet]⟩

structure LinkState.BoundNew (st made : LinkState π τ) (level : Nat) (name : NetName) : Prop where
  nNet : made.nNet = st.nNet + 1
  levels : made.hierarchyLevel = Function.update st.hierarchyLevel st.nNet level
  pins : made.pins = st.pins
  terms : made.terms = st.terms
  merged : made.mergedInto = st.mergedInto
  map : made.map = Function.update st.map name (some st.nNet)
  constants : ∀ net, made.IsConstant net ↔ st.IsConstant net ∨
    (net = st.nNet ∧ (name = zeroNetName ∨ name = oneNetName))

theorem LinkState.ensureNetBinding_new {st : LinkState π τ} (found : st.find name = some none) (level : Nat) :
    ∃ made, st.ensureNetBinding level name = some (made, st.nNet) ∧ st.BoundNew made level name := by
  have kept : ∀ net, (st.makeNet level name).IsConstant net ↔ st.IsConstant net := fun _ => Iff.rfl
  simp only [ensureNetBinding,found,Option.map_some]
  refine ⟨_, rfl, ?_⟩
  by_cases zero : name = zeroNetName
  · have one : name ≠ oneNetName := by
      rw [zero]
      decide
    rw [if_neg one,if_pos zero]
    refine ⟨rfl, rfl, rfl, rfl, rfl, rfl, fun net => ?_⟩
    rw [isConstant_add,kept]
    exact or_congr_right (iff_self_and.mpr fun _ => Or.inl zero)
  · rw [if_neg zero]
    by_cases one : name = oneNetName
    · rw [if_pos one]
      refine ⟨rfl, rfl, rfl, rfl, rfl, rfl, fun net => ?_⟩
      rw [isConstant_add,kept]
      exact or_congr_right (iff_self_and.mpr fun _ => Or.inr one)
    · rw [if_neg one]
      refine ⟨rfl, rfl, rfl, rfl, rfl, rfl, fun net => ?_⟩
      rw [kept]
      simp [zero,one]

theorem LinkState.survives_update {st made : LinkState π τ} (map : made.map = Function.update st.map name (some net))
    (merged : made.mergedInto = st.mergedInto) (unmerged : st.mergedInto net = none) :
    made.Survives other root ↔ (other = name ∧ root = net) ∨ (other ≠ name ∧ st.Survives other root) := by
  unfold Survives
  rw [map,merged]
  by_cases same : other = name
  · subst same
    rw [Function.update_self]
    constructor
    · rintro ⟨net', bound, ends⟩
      obtain rfl := Option.some.inj bound
      exact Or.inl ⟨rfl, ends.unique (.self unmerged)⟩
    · rintro (⟨-, rfl⟩ | ⟨differ, -⟩)
      · exact ⟨root, rfl, .self unmerged⟩
      · exact absurd rfl differ
  · rw [Function.update_of_ne same]
    simp [same]

namespace LinkView.Inv
variable {level : Nat} {view : LinkView π τ} {st made : LinkState π τ}

theorem survives_bindNew (inv : Inv level view st) (bound : st.BoundNew made level name) (other : NetName)
    (root : Nat) :
    made.Survives other root ↔ (other = name ∧ root = st.nNet) ∨ (other ≠ name ∧ st.Survives other root) := by
  have unmerged : st.mergedInto st.nNet = none := by
    cases points : st.mergedInto st.nNet with
    | none => rfl
    | some next => exact absurd (inv.merged _ _ points).1 (Nat.lt_irrefl _)
  exact LinkState.survives_update bound.map bound.merged unmerged

theorem survives_of_bindNew (inv : Inv level view st) (new : ¬ view.mentioned name)
    (bound : st.BoundNew made level name) (here : st.Survives other root) : made.Survives other root :=
  (inv.survives_bindNew bound other root).mpr (Or.inr ⟨fun same => new (same ▸ inv.mentioned_of_survives here), here⟩)

theorem same_bindNew (inv : Inv level view st) (new : ¬ view.mentioned name) (bound : st.BoundNew made level name)
    (left : made.Survives a root) (right : made.Survives b root') : root = root' ↔ view.Related a b := by
  have unrelated : ∀ other, view.mentioned other → ¬ view.Related other name :=
    fun other here related => new (inv.related_mentioned (.symm _ _ related) here)
  rcases (inv.survives_bindNew bound a root).mp left with ⟨rfl, rfl⟩ | ⟨differ, left⟩
  · rcases (inv.survives_bindNew bound b root').mp right with ⟨rfl, rfl⟩ | ⟨differ, right⟩
    · exact iff_of_true rfl (.refl _)
    · have below := inv.survives_lt right
      exact iff_of_false (by omega) fun related => unrelated b (inv.mentioned_of_survives right) (.symm _ _ related)
  · rcases (inv.survives_bindNew bound b root').mp right with ⟨rfl, rfl⟩ | ⟨differ', right⟩
    · have below := inv.survives_lt left
      exact iff_of_false (by omega) (unrelated a (inv.mentioned_of_survives left))
    · exact inv.same_iff left right

theorem isConstant_lt (inv : Inv level view st) (constant : st.IsConstant root) : root < st.nNet := by
  obtain ⟨value, mem⟩ := constant
  exact inv.constantNets value root mem

theorem constants_bindNew (inv : Inv level view st) (new : ¬ view.mentioned name) (bound : st.BoundNew made level name)
    (here : made.Survives other root) : made.IsConstant root ↔
      ∃ other', (view.mention name).mentioned other' ∧ (view.mention name).constant other' ∧
        made.Survives other' root := by
  rw [bound.constants]
  rcases (inv.survives_bindNew bound other root).mp here with ⟨rfl, rfl⟩ | ⟨differ, here⟩
  · constructor
    · rintro (old | ⟨-, rfl | rfl⟩)
      · exact absurd (inv.isConstant_lt old) (Nat.lt_irrefl _)
      · exact ⟨_, Or.inr rfl, inv.zeroOne.1, here⟩
      · exact ⟨_, Or.inr rfl, inv.zeroOne.2, here⟩
    · rintro ⟨other', -, constant, here'⟩
      rcases (inv.survives_bindNew bound other' _).mp here' with ⟨rfl, -⟩ | ⟨-, here'⟩
      · exact Or.inr ⟨rfl, (inv.constant _ constant).resolve_left new⟩
      · exact absurd (inv.survives_lt here') (Nat.lt_irrefl _)
  · have below := inv.survives_lt here
    rw [inv.linked.constants other root (inv.mentioned_of_survives here) here]
    constructor
    · rintro (⟨other', mentioned, constant, here'⟩ | ⟨rfl, -⟩)
      · exact ⟨other', Or.inl mentioned, constant, inv.survives_of_bindNew new bound here'⟩
      · exact absurd below (Nat.lt_irrefl _)
    · rintro ⟨other', -, constant, here'⟩
      rcases (inv.survives_bindNew bound other' root).mp here' with ⟨-, rfl⟩ | ⟨-, here'⟩
      · exact absurd below (Nat.lt_irrefl _)
      · exact Or.inl ⟨other', inv.mentioned_of_survives here', constant, here'⟩

theorem linked_bindNew (inv : Inv level view st) (new : ¬ view.mentioned name) (bound : st.BoundNew made level name) :
    (view.mention name).Linked made := by
  constructor
  case survives =>
    rintro other (here | rfl)
    · obtain ⟨root, here⟩ := inv.linked.survives other here
      exact ⟨root, inv.survives_of_bindNew new bound here⟩
    · exact ⟨st.nNet, (inv.survives_bindNew bound _ _).mpr (Or.inl ⟨rfl, rfl⟩)⟩
  case same =>
    intro a b root root' _ _ left right
    exact inv.same_bindNew new bound left right
  case pins =>
    intro pin other connected
    obtain ⟨root, here, mem⟩ := inv.linked.pins pin other connected
    exact ⟨root, inv.survives_of_bindNew new bound here, by rwa [bound.pins]⟩
  case terms =>
    intro term other connected
    obtain ⟨root, here, mem⟩ := inv.linked.terms term other connected
    exact ⟨root, inv.survives_of_bindNew new bound here, by rwa [bound.terms]⟩
  case constants =>
    intro other root _ here
    exact inv.constants_bindNew new bound here

theorem bindNew (inv : Inv level view st) (new : ¬ view.mentioned name) (bound : st.BoundNew made level name) :
    Inv level (view.mention name) made ∧ made.Survives name st.nNet ∧ ∀ other root, st.Survives other root →
    made.Survives other root := by
  refine ⟨⟨inv.linked_bindNew new bound, ?_, ?_, ?_, ?_, ?_, ?_, ?_, inv.zeroOne⟩,
    (inv.survives_bindNew bound _ _).mpr (Or.inl ⟨rfl, rfl⟩), fun other root => inv.survives_of_bindNew new bound⟩
  · intro net below
    have nNet := bound.nNet
    rw [bound.levels]
    by_cases same : net = st.nNet
    · rw [same,Function.update_self]
    · rw [Function.update_of_ne same]
      exact inv.leveled net (by omega)
  · intro other net named
    rw [bound.map] at named
    have nNet := bound.nNet
    by_cases same : other = name
    · rw [same,Function.update_self,Option.some.injEq] at named
      omega
    · rw [Function.update_of_ne same] at named
      have := inv.bound other net named
      omega
  · intro net next points
    rw [bound.merged] at points
    have := inv.merged net next points
    have nNet := bound.nNet
    omega
  · intro value net mem
    have nNet := bound.nNet
    rcases (bound.constants net).mp ⟨value, mem⟩ with old | ⟨rfl, -⟩
    · have := inv.isConstant_lt old
      omega
    · omega
  · intro other
    rw [bound.map]
    by_cases same : other = name
    · rw [same,Function.update_self]
      exact iff_of_true (Or.inr rfl) rfl
    · rw [Function.update_of_ne same]
      exact (or_iff_left same).trans (inv.mapped other)
  · intro a b assigned
    exact (inv.assigned a b assigned).imp Or.inl Or.inl
  · intro other constant
    exact (inv.constant other constant).imp Or.inl id

/-- Binding a name: it is mentioned from then on and bound to a surviving net; other names keep theirs. -/
theorem ensure (inv : Inv level view st) (name : NetName) :
    ∃ st' root, st.ensureNetBinding level name = some (st', root) ∧ Inv level (view.mention name) st' ∧
    st'.Survives name root ∧
      ∀ other root', st.Survives other root' → st'.Survives other root' := by
  by_cases mentioned : view.mentioned name
  · obtain ⟨root, survives⟩ := inv.linked.survives name mentioned
    have found : st.ensureNetBinding level name = some (st, root) := by
      simp only [LinkState.ensureNetBinding,inv.find_survives survives,Option.map_some]
    rw [LinkView.mention_eq mentioned]
    exact ⟨st, root, found, inv, survives, fun _ _ => id⟩
  · obtain ⟨made, ensured, bound⟩ := LinkState.ensureNetBinding_new (inv.find_new mentioned) level
    obtain ⟨inv', survives, old⟩ := inv.bindNew mentioned bound
    exact ⟨made, st.nNet, ensured, inv', survives, old⟩

theorem atRoot (survives : st.Survives name root) : st.mergedInto root = none := by
  obtain ⟨_, -, ends⟩ := survives
  exact ends.atRoot

end LinkView.Inv

namespace LinkView
variable {level : Nat} {view : LinkView π τ} {st : LinkState π τ}

def assign (view : LinkView π τ) (lhsName rhsName : NetName) : LinkView π τ :=
  { view with assigned := fun a b => view.assigned a b ∨ (a = lhsName ∧ b = rhsName) }

theorem assign_related (lhsName rhsName a b : NetName) : (view.assign lhsName rhsName).Related a b ↔
    view.Related a b ∨ (view.Related a lhsName ∧ view.Related rhsName b) ∨
    (view.Related a rhsName ∧ view.Related lhsName b) :=
  MergeForest.eqvGen_insert lhsName rhsName a b

theorem Inv.init : Inv level (.init : LinkView π τ) .init := by
  have nowhere : ∀ {name root}, ¬ (LinkState.init : LinkState π τ).Survives name root := by
    rintro name root ⟨net, bound, -⟩
    cases bound
  refine ⟨⟨nofun, nofun, nofun, nofun, nofun⟩, nofun, nofun, nofun, ?_, ?_, nofun, fun _ =>
    Or.inr, Or.inl rfl, Or.inr rfl⟩
  · intro value net mem
    cases mem
  · intro name
    exact iff_of_false id Bool.false_ne_true

theorem Inv.makeTerm (inv : Inv level view st) (survives : st.Survives name root) (term : τ) :
    Inv level { view with terminal := fun term' other => view.terminal term' other ∨ (term' = term ∧ other = name) }
      { st with terms := Function.update st.terms root (term :: st.terms root) } := by
  refine ⟨⟨inv.linked.survives, inv.linked.same, inv.linked.pins, ?_, inv.linked.constants⟩, inv.leveled,
    inv.bound, inv.merged,
    inv.constantNets, inv.mapped, inv.assigned, inv.constant, inv.zeroOne⟩
  rintro term' other (connected | ⟨rfl, rfl⟩)
  · obtain ⟨root', here, mem⟩ := inv.linked.terms term' other connected
    refine ⟨root', here, ?_⟩
    by_cases same : root' = root
    · subst same
      simp [mem]
    · simpa [same] using mem
  · exact ⟨root, survives, by simp⟩

theorem Inv.addSupply (inv : Inv level view st) (survives : st.Survives name root) (value : LogicValue) :
    Inv level { view with constant := fun other => view.constant other ∨ other = name }
    (st.addConstantNet root value) := by
  have mentioned := inv.mentioned_of_survives survives
  refine ⟨⟨inv.linked.survives, inv.linked.same, inv.linked.pins, inv.linked.terms, ?_⟩, inv.leveled, inv.bound,
    inv.merged, ?_,
    inv.mapped, inv.assigned, ?_, inv.zeroOne.imp Or.inl Or.inl⟩
  · intro other root' _ here
    rw [LinkState.isConstant_add,inv.linked.constants other root' (inv.mentioned_of_survives here) here]
    constructor
    · rintro (⟨name', mentioned', constant, here'⟩ | rfl)
      · exact ⟨name', mentioned', Or.inl constant, here'⟩
      · exact ⟨name, mentioned, Or.inr rfl, survives⟩
    · rintro ⟨name', mentioned', constant | rfl, here'⟩
      · exact Or.inl ⟨name', mentioned', constant, here'⟩
      · exact Or.inr (LinkState.Survives.unique here' survives)
  · intro value' net mem
    rcases (LinkState.isConstant_add st root net value).mp ⟨value', mem⟩ with ⟨value'', old⟩ | rfl
    · exact inv.constantNets value'' net old
    · exact inv.survives_lt survives
  · rintro other (old | rfl)
    · exact inv.constant other old
    · exact Or.inl mentioned

theorem of_take_succ {ops : List (LinkOp π τ)} (here : ops[k]? = some op) :
    of (ops.take (k + 1)) = (of (ops.take k)).step op := by
  rw [List.take_add_one,here,Option.toList_some,of,List.foldl_append]
  rfl

variable [DecidableEq π]

theorem Inv.survives_mergeInto (left : st.Survives lhsName lhsNet) (right : st.Survives rhsName rhsNet)
    (differ : lhsNet ≠ rhsNet) (survives : st.Survives name root) :
    (st.mergeInto lhsNet rhsNet).Survives name (if root = lhsNet then rhsNet else root) := by
  obtain ⟨net, bound, ends⟩ := survives
  exact ⟨net, bound, ends.join (Inv.atRoot right) (Inv.atRoot left) differ⟩

theorem Inv.survives_of_mergeInto (inv : Inv level view st) (left : st.Survives lhsName lhsNet)
    (right : st.Survives rhsName rhsNet) (differ : lhsNet ≠ rhsNet) (mentioned : view.mentioned name)
    (here : (st.mergeInto lhsNet rhsNet).Survives name root') :
    ∃ root, st.Survives name root ∧ root' = if root = lhsNet then rhsNet else root := by
  obtain ⟨root, old⟩ := inv.linked.survives name mentioned
  exact ⟨root, old, here.unique (Inv.survives_mergeInto left right differ old)⟩

omit [DecidableEq π] in
/-- What is on the list of a net is found on that of the net it is merged into. -/
theorem mem_moved {α : Type} {lists : Nat → List α} {x : α} {net into root : Nat} (differ : net ≠ into)
    (mem : x ∈ lists root) :
    x ∈ Function.update (Function.update lists into ((lists net).reverse ++ lists into)) net [] (if root = net then into
    else root) := by
  by_cases moved : root = net
  · subst moved
    simp [Function.update_of_ne (Ne.symm differ),mem]
  · by_cases target : root = into
    · subst target
      simp [moved,mem]
    · simp [moved,target,mem]

/-- The constants of the names that end in a net are still those of the names that end in it. -/
theorem Inv.constants_mergeInto (inv : Inv level view st) (left : st.Survives lhsName lhsNet)
    (right : st.Survives rhsName rhsNet) (differ : lhsNet ≠ rhsNet)
    (constant : view.HasConstant lhsName → view.HasConstant rhsName) (old : st.Survives name root) :
    st.IsConstant (if root = lhsNet then rhsNet else root) ↔ ∃ other, view.mentioned other ∧ view.constant other ∧
      (st.mergeInto lhsNet rhsNet).Survives other (if root = lhsNet then rhsNet else root) := by
  have named : ∃ other, st.Survives other (if root = lhsNet then rhsNet else root) := by
    by_cases moved : root = lhsNet
    · rw [if_pos moved]
      exact ⟨rhsName, right⟩
    · rw [if_neg moved]
      exact ⟨name, old⟩
  have remains : (if root = lhsNet then rhsNet else root) ≠ lhsNet := by
    by_cases moved : root = lhsNet
    · rw [if_pos moved]
      exact Ne.symm differ
    · rwa [if_neg moved]
  generalize (if root = lhsNet then rhsNet else root) = target at *
  obtain ⟨name', here'⟩ := named
  constructor
  · intro isConstant
    obtain ⟨other, mentioned, constant, here⟩ :=
      (inv.linked.constants name' target (inv.mentioned_of_survives here') here').mp isConstant
    have here := Inv.survives_mergeInto left right differ here
    rw [if_neg remains] at here
    exact ⟨other, mentioned, constant, here⟩
  · rintro ⟨other, mentioned, isConstant, here⟩
    obtain ⟨source, old, rfl⟩ := inv.survives_of_mergeInto left right differ mentioned here
    have known : st.IsConstant source := (inv.isConstant_iff old).mpr ⟨other, isConstant, .refl _⟩
    by_cases moved : source = lhsNet
    · subst moved
      rw [if_pos rfl]
      exact (inv.isConstant_iff right).mpr (constant ((inv.isConstant_iff left).mp known))
    · rwa [if_neg moved]

theorem Inv.linked_mergeInto (inv : Inv level view st) (left : st.Survives lhsName lhsNet)
    (right : st.Survives rhsName rhsNet)
    (differ : lhsNet ≠ rhsNet) (constant : view.HasConstant lhsName → view.HasConstant rhsName) :
    (view.assign lhsName rhsName).Linked (st.mergeInto lhsNet rhsNet) := by
  constructor
  case survives =>
    intro name mentioned
    obtain ⟨root, here⟩ := inv.linked.survives name mentioned
    exact ⟨_, Inv.survives_mergeInto left right differ here⟩
  case same =>
    intro a b root root' mentioned mentioned' here here'
    obtain ⟨rootA, hereA, rfl⟩ := inv.survives_of_mergeInto left right differ mentioned here
    obtain ⟨rootB, hereB, rfl⟩ := inv.survives_of_mergeInto left right differ mentioned' here'
    rw [assign_related,← inv.same_iff hereA hereB,← inv.same_iff hereA left,← inv.same_iff right hereB,
      ← inv.same_iff hereA right,
      ← inv.same_iff left hereB]
    grind
  case pins =>
    intro pin name connected
    obtain ⟨root, here, mem⟩ := inv.linked.pins pin name connected
    exact ⟨_, Inv.survives_mergeInto left right differ here, mem_moved differ mem⟩
  case terms =>
    intro term name connected
    obtain ⟨root, here, mem⟩ := inv.linked.terms term name connected
    exact ⟨_, Inv.survives_mergeInto left right differ here, mem_moved differ mem⟩
  case constants =>
    intro name root' mentioned here
    obtain ⟨root, old, rfl⟩ := inv.survives_of_mergeInto left right differ mentioned here
    exact inv.constants_mergeInto left right differ constant old

/-- Two nets of names that are not related are merged, and the right one has the constants. -/
theorem Inv.mergeInto (inv : Inv level view st) (left : st.Survives lhsName lhsNet) (right : st.Survives rhsName rhsNet)
    (fits : ¬ view.Related lhsName rhsName) (constant : view.HasConstant lhsName → view.HasConstant rhsName) :
    Inv level (view.assign lhsName rhsName) (st.mergeInto lhsNet rhsNet) := by
  have differ : lhsNet ≠ rhsNet := fun same => fits ((inv.same_iff left right).mp same)
  refine ⟨inv.linked_mergeInto left right differ constant, inv.leveled, inv.bound, ?_, inv.constantNets, inv.mapped, ?_,
    inv.constant,
    inv.zeroOne⟩
  · intro net next points
    change Function.update st.mergedInto lhsNet (some rhsNet) net = some next at points
    by_cases moved : net = lhsNet
    · rw [moved,Function.update_self,Option.some.injEq] at points
      rw [moved,← points]
      exact ⟨inv.survives_lt left, inv.survives_lt right⟩
    · rw [Function.update_of_ne moved] at points
      exact inv.merged net next points
  · rintro a b (old | ⟨rfl, rfl⟩)
    · exact inv.assigned a b old
    · exact ⟨inv.mentioned_of_survives left, inv.mentioned_of_survives right⟩

/-- An assign of related names never ends a walk again; one that leaves a constant behind loses it. -/
theorem Inv.not_linked (inv : Inv level view st) (left : st.Survives lhsName lhsNet)
    (right : st.Survives rhsName rhsNet)
    (misfit : ¬ (¬ view.Related lhsName rhsName ∧ (view.HasConstant lhsName → view.HasConstant rhsName))) :
    ¬ (view.assign lhsName rhsName).Linked (st.mergeInto lhsNet rhsNet) := by
  intro linked
  by_cases related : view.Related lhsName rhsName
  · obtain rfl := (inv.same_iff left right).mpr related
    obtain ⟨root, net, bound, ends⟩ := linked.survives lhsName (inv.mentioned_of_survives left)
    obtain ⟨net', bound', ends'⟩ := left
    obtain rfl := Option.some.inj (bound.symm.trans bound')
    exact MergeForest.not_ends_self ends' ends
  · have lost : view.HasConstant lhsName ∧ ¬ view.HasConstant rhsName := by
      by_contra kept
      exact misfit ⟨related, fun constant => by_contra fun missing => kept ⟨constant, missing⟩⟩
    have differ : lhsNet ≠ rhsNet := fun same => related ((inv.same_iff left right).mp same)
    obtain ⟨other, constant, relates⟩ := lost.1
    have mentioned := inv.related_mentioned relates (inv.mentioned_of_survives left)
    obtain ⟨root, here⟩ := inv.linked.survives other mentioned
    obtain rfl := (inv.same_iff here left).mpr relates
    have moved := Inv.survives_mergeInto left right differ here
    have stays := Inv.survives_mergeInto left right differ right
    rw [if_pos rfl] at moved
    rw [if_neg (Ne.symm differ)] at stays
    have isConstant := (linked.constants rhsName rhsNet (inv.mentioned_of_survives right) stays).mpr ⟨other, mentioned,
      constant, moved⟩
    exact lost.2 ((inv.isConstant_iff right).mp isConstant)

theorem Inv.connect (inv : Inv level view st) (survives : st.Survives name root) {pin : π} {pins : Nat → List π}
    (kept : ∀ net other, other ≠ pin → other ∈ st.pins net → other ∈ pins net) :
    Inv level { view with
        connected := fun pin' other => (pin' = pin ∧ other = name) ∨ (pin' ≠ pin ∧ view.connected pin' other) }
      { st with
        pins := Function.update pins root (pin :: pins root)
        pinNet := Function.update st.pinNet pin (some root) } := by
  refine ⟨⟨inv.linked.survives, inv.linked.same, ?_, inv.linked.terms, inv.linked.constants⟩, inv.leveled,
    inv.bound, inv.merged,
    inv.constantNets, inv.mapped, inv.assigned, inv.constant, inv.zeroOne⟩
  rintro pin' other (⟨rfl, rfl⟩ | ⟨differ, connected⟩)
  · exact ⟨root, survives, by simp⟩
  · obtain ⟨root', here, mem⟩ := inv.linked.pins pin' other connected
    have mem := kept root' pin' differ mem
    refine ⟨root', here, ?_⟩
    by_cases same : root' = root
    · subst same
      simp [mem]
    · simpa [same] using mem

/-- One step: it links if it fits, and breaks the nets if not. -/
theorem Inv.step (inv : Inv level view st) (op : LinkOp π τ) : ∃ st', op.run level st = some st' ∧
    (view.Fits op → Inv level (view.step op) st') ∧ (¬ view.Fits op → ¬ (view.step op).Linked st') := by
  cases op with
  | makeTerm term name =>
    obtain ⟨st', root, ensured, inv', survives, -⟩ := inv.ensure name
    refine ⟨_, by simp only [LinkOp.run,LinkState.makeTerm,ensured,Option.map_some], fun _ =>
      inv'.makeTerm survives term,
      fun misfit => absurd trivial misfit⟩
  | connect pin name =>
    obtain ⟨st', root, ensured, inv', survives, -⟩ := inv.ensure name
    refine ⟨_, by simp only [LinkOp.run,LinkState.connect,ensured,Option.map_some]; rfl, fun _ =>
      inv'.connect survives ?_,
      fun misfit => absurd trivial misfit⟩
    intro net other differ mem
    cases st'.pinNet pin with
    | none => exact mem
    | some prevNet =>
      by_cases same : net = prevNet
      · subst same
        simpa [differ] using mem
      · simpa [same] using mem
  | mergeNames lhsName rhsName =>
    obtain ⟨stL, lhsNet, ensuredL, invL, left, -⟩ := inv.ensure lhsName
    obtain ⟨stR, rhsNet, ensuredR, invR, right, kept⟩ := invL.ensure rhsName
    have left := kept _ _ left
    have levels : stR.hierarchyLevel rhsNet ≤ stR.hierarchyLevel lhsNet :=
      Nat.le_of_eq ((invR.leveled _ (invR.survives_lt right)).trans (invR.leveled _ (invR.survives_lt left)).symm)
    have ran : (LinkOp.mergeNames lhsName rhsName).run level st = some (stR.mergeInto lhsNet rhsNet) := by
      simp only [LinkOp.run,LinkState.mergeNames,ensuredL,ensuredR,Option.bind_eq_bind,Option.bind_some,Option.pure_def,
        if_pos levels]
    exact ⟨_, ran, fun fits => invR.mergeInto left right fits.1 fits.2, fun misfit => invR.not_linked left right misfit⟩
  | addSupply name value =>
    obtain ⟨st', root, ensured, inv', survives, -⟩ := inv.ensure name
    refine ⟨_, by simp only [LinkOp.run,LinkState.addSupply,ensured,Option.map_some], fun _ =>
      inv'.addSupply survives value,
      fun misfit => absurd trivial misfit⟩

end LinkView

theorem linkSteps_succ [DecidableEq π] {module : VerilogModule π τ} {st : LinkState π τ}
    (here : module.ops[k]? = some op)
    (ran : module.linkSteps level k = some st) : module.linkSteps level (k + 1) = op.run level st := by
  rw [VerilogModule.linkSteps] at ran
  rw [VerilogModule.linkSteps,List.take_add_one,here,Option.toList_some,runOps_append,ran,Option.bind_some]
  simp [runOps]

theorem linkSteps_inv [DecidableEq π] (level : Nat) (module : VerilogModule π τ) (count : Nat)
    (inside : count ≤ module.ops.length)
    (fits : ∀ k < count, ∀ op, module.ops[k]? = some op → (LinkView.of (module.ops.take k)).Fits op) :
    ∃ st, module.linkSteps level count = some st ∧ (LinkView.of (module.ops.take count)).Inv level st := by
  induction count with
  | zero => exact ⟨.init, rfl, LinkView.Inv.init⟩
  | succ k ih =>
    obtain ⟨st, ran, inv⟩ := ih (Nat.le_of_succ_le inside) fun j before => fits j (Nat.lt_succ_of_lt before)
    have here : module.ops[k]? = some module.ops[k] := List.getElem?_eq_getElem inside
    obtain ⟨st', stepped, next, -⟩ := inv.step module.ops[k]
    rw [LinkView.of_take_succ here,linkSteps_succ here ran]
    exact ⟨st', stepped, next (fits k (Nat.lt_succ_self k) _ here)⟩

/-- Linking a module is taking its steps, and after each step the nets are merged as the assigns up to it say, if and
only if each assign relates names that are not yet related and leaves the constants on its right side. -/
theorem assignsMerge [DecidableEq π] (level : Nat) (module : VerilogModule π τ) :
    LinkState.link level module = module.linkSteps level module.ops.length ∧
      ((∀ count ≤ module.ops.length, ∃ st, module.linkSteps level count = some st ∧
          (LinkView.of (module.ops.take count)).Linked st) ↔
        ∀ k op, module.ops[k]? = some op → (LinkView.of (module.ops.take k)).Fits op) := by
  refine ⟨link_eq level module, ?_, ?_⟩
  · intro linked k
    induction k using Nat.strongRecOn with
    | _ k ih =>
      intro op here
      have inside : k < module.ops.length := (List.getElem?_eq_some_iff.mp here).1
      obtain ⟨st, ran, inv⟩ := linkSteps_inv level module k (Nat.le_of_lt inside) ih
      obtain ⟨st', stepped, -, broken⟩ := inv.step op
      by_contra misfit
      obtain ⟨stNext, ranNext, linkedNext⟩ := linked (k + 1) inside
      rw [linkSteps_succ here ran,stepped] at ranNext
      obtain rfl := Option.some.inj ranNext
      rw [LinkView.of_take_succ here] at linkedNext
      exact broken misfit linkedNext
  · intro fits count inside
    obtain ⟨st, ran, inv⟩ := linkSteps_inv level module count inside fun k _ => fits k
    exact ⟨st, ran, inv.linked⟩

def repeatedAssign : VerilogModule Unit Unit where
  dcls := fun _ => none
  ports := []
  stmts := List.replicate 3 (.assign ⟨.scalar ['a'], .scalar ['b']⟩)

/-- A net that is assigned a constant and then another net. -/
def constantAssign : VerilogModule Unit Unit where
  dcls := fun _ => none
  ports := []
  stmts := [.assign ⟨.scalar ['a'], .constant [false]⟩, .assign ⟨.scalar ['a'], .scalar ['b']⟩]

/-- The first never ends; in the second the net of the constant is not a constant net. -/
theorem assignsMerge_repeated : (LinkState.link 0 repeatedAssign).isNone ∧
    ∃ st, LinkState.link 0 constantAssign = some st ∧ ¬ (LinkView.of constantAssign.ops).Linked st := by
  refine ⟨by decide +kernel, _, rfl, fun linked => ?_⟩
  have constant := (linked.constants ['a'] 2 (Or.inl (Or.inr rfl)) ⟨0, rfl,
    MergeForest.ends_of_follow (show follow _ 3 _ = _ from rfl)⟩).mpr
    ⟨zeroNetName, Or.inl (Or.inl (Or.inr rfl)), Or.inl rfl,
      ⟨1, rfl, MergeForest.ends_of_follow (show follow _ 3 _ = _ from rfl)⟩⟩
  obtain ⟨value, mem⟩ := constant
  cases value with
  | zero => exact absurd mem (by decide +kernel)
  | one => exact absurd mem (by decide +kernel)
  | unknown => exact absurd mem (by decide +kernel)
  | rise => exact absurd mem (by decide +kernel)
  | fall => exact absurd mem (by decide +kernel)

end View
end GTPower
