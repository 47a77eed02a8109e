import GTPower.NetExpressions
import Mathlib.Data.List.Induction

/-! An instance of a Liberty cell is linked from the names of its nets by pin, or reference by reference. -/
namespace GTPower.LibertyInsts
open NetExpressions

section Source

abbrev PortName := List Char

/-- Ports by the indices of their pins. -/
inductive LibertyPort
  | scalar (pinIndex : ℕ)
  | bus (members : List ℕ)

def LibertyPort.pins : LibertyPort → List ℕ
  | scalar pinIndex => [pinIndex]
  | bus members => members

def LibertyPort.size (port : LibertyPort) : ℕ := port.pins.length

/-- The bits of all ports are the pins of the instances. -/
structure LibertyCell where
  findLibertyPort : PortName → Option LibertyPort
  portBits : List ℕ
  bits_mem {name : PortName} {port : LibertyPort} {pin : ℕ} : findLibertyPort name = some port → pin ∈ port.pins →
    pin ∈ portBits

/-- `.A(net)`, or `.A()` without a net. -/
structure VerilogNetPortRefScalarNet where
  name : PortName
  netName : Option NetName

def VerilogNetPortRefScalarNet.net (vpin : VerilogNetPortRefScalarNet) : NetExpressions.VerilogNet :=
  .portRefScalarNet vpin.name vpin.netName

def VerilogNetPortRefScalarNet.hasNet (vpin : VerilogNetPortRefScalarNet) : Bool := vpin.netName.isSome

/-- A net of the parent that a name was bound to before, or one that is made for its name. -/
inductive Net (ν : Type)
  | bound (net : ν)
  | made (name : NetName)

/-- The bindings of the parent, and the pins of the instance with their nets. -/
structure Linked (ν : Type) where
  map : NetName → Option (Net ν)
  pinNet : ℕ → Option (Option (Net ν))

variable {ν : Type}

namespace Linked

/-- Names that are bound find the net that theirs was merged into. -/
def init (find : NetName → Option ν) : Linked ν := ⟨fun name => (find name).map .bound, fun _ => none⟩

def ensureNetBinding (st : Linked ν) (netName : NetName) : Linked ν × Net ν :=
  match st.map netName with
  | some net => (st, net)
  | none => ({ st with map := Function.update st.map netName (some (.made netName)) }, .made netName)

def makePin (st : Linked ν) (pin : ℕ) (net : Option (Net ν)) : Linked ν :=
  { st with pinNet := Function.update st.pinNet pin (some net) }

/-- A pin that is there leaves its net. -/
def connect (st : Linked ν) (pin : ℕ) (net : Net ν) : Linked ν :=
  { st with pinNet := Function.update st.pinNet pin (some (some net)) }

def makeLeafPin (st : Linked ν) (pin : ℕ) (netName : Option NetName) : Linked ν :=
  match netName with
  | none => st
  | some netName => (st.ensureNetBinding netName).1.connect pin (st.ensureNetBinding netName).2

def makeInstPin (declaration : Declarations) (st : Linked ν × NameIterator) (pin : ℕ) : Linked ν × NameIterator :=
  if st.2.hasNext then (st.1.makeLeafPin pin (st.2.next declaration).1, (st.2.next declaration).2) else st

variable (cell : LibertyCell) (declaration : Declarations)

/-- A reference of another size is left out with a warning. -/
def makeNamedInstPin (st : Linked ν) (vpin : VerilogNetPortRefScalarNet) : Linked ν :=
  match cell.findLibertyPort vpin.name with
  | none => st
  | some port =>
    if vpin.hasNet && port.size != vpin.net.size declaration then st
    else (port.pins.foldl (makeInstPin declaration) (st, vpin.net.nameIterator declaration)).1

/-- Make all pins so timing arcs are built. -/
def makePins (st : Linked ν) : Linked ν := cell.portBits.foldl (fun st pin => st.makePin pin none) st

def makeModuleInstNetwork (vpins : List VerilogNetPortRefScalarNet) (st : Linked ν) : Linked ν :=
  vpins.foldl (makeNamedInstPin cell declaration) (st.makePins cell)

/-- Check for single bit bus reference .A(BUS) -> .A(BUS[LSB]). -/
def busReference (netName : NetName) : NetName :=
  match declaration netName with
  | some (.bus fromIndex _) => verilogBusBitName netName fromIndex
  | _ => netName

/-- `some none` stands for the name of unconnected nets. -/
def makeLibertyPin (netNames : ℕ → Option (Option NetName)) (st : Linked ν) (pin : ℕ) : Linked ν :=
  match netNames pin with
  | some (some netName) =>
    (st.ensureNetBinding (busReference declaration netName)).1.makePin pin
      (st.ensureNetBinding (busReference declaration netName)).2
  | _ => st.makePin pin none

def makeLibertyInst (netNames : ℕ → Option (Option NetName)) (st : Linked ν) : Linked ν :=
  cell.portBits.foldl (makeLibertyPin declaration netNames) st

end Linked

namespace LibertyCell

def hasScalarNamedPortRefs (cell : LibertyCell) (vpins : List VerilogNetPortRefScalarNet) : Bool :=
  !vpins.isEmpty && vpins.all fun vpin => (cell.findLibertyPort vpin.name).any fun port => port.size == 1

/-- The pin of a scalar port, or the first member of a bus. -/
def pinIndex (cell : LibertyCell) (vpin : VerilogNetPortRefScalarNet) : Option ℕ :=
  (cell.findLibertyPort vpin.name).bind fun port => port.pins.head?

def setNetName (cell : LibertyCell) (netNames : ℕ → Option (Option NetName)) (vpin : VerilogNetPortRefScalarNet) : ℕ →
    Option (Option NetName) :=
  match cell.pinIndex vpin with
  | none => netNames
  | some pin => Function.update netNames pin (some vpin.netName)

def netNames (cell : LibertyCell) (vpins : List VerilogNetPortRefScalarNet) : ℕ → Option (Option NetName) :=
  vpins.foldl cell.setNetName fun _ => none

end LibertyCell
end Source

section Bindings
variable {ν : Type} {find : NetName → Option ν} {st : Linked ν} {pin : ℕ} {name netName : NetName}

/-- The net of a name, whether it is bound yet or not. -/
def netOf (find : NetName → Option ν) (name : NetName) : Net ν := ((find name).map .bound).getD (.made name)

/-- Both names are bound to one net, or they are one. -/
def SameNet (find : NetName → Option ν) (name name' : NetName) : Prop := name = name' ∨ ∃ net, find name = some net ∧
    find name' = some net

theorem netOf_eq_iff {name' : NetName} : netOf find name = netOf find name' ↔ SameNet find name name' := by
  unfold netOf SameNet
  cases found : find name <;> cases found' : find name'
  · simp
  · simp only [Option.map_none,Option.getD_none,Option.map_some,Option.getD_some,reduceCtorEq,false_and,exists_false,
      or_false,false_iff]
    rintro rfl
    rw [found] at found'
    cases found'
  · simp only [Option.map_none,Option.getD_none,Option.map_some,Option.getD_some,reduceCtorEq,and_false,exists_false,
      or_false,false_iff]
    rintro rfl
    rw [found] at found'
    cases found'
  · rename_i net net'
    simp only [Option.map_some,Option.getD_some,Net.bound.injEq,Option.some.injEq]
    constructor
    · rintro rfl
      exact .inr ⟨net, rfl, rfl⟩
    · rintro (rfl | ⟨_, rfl, rfl⟩)
      · rw [found] at found'
        exact Option.some.inj found'
      · rfl

namespace Linked

/-- Names are bound to their own nets, and those that were bound still are. -/
def Extends (find : NetName → Option ν) (st : Linked ν) : Prop :=
  ∀ name, st.map name = some (netOf find name) ∨ st.map name = none ∧ find name = none

theorem extends_init (find : NetName → Option ν) : (init find).Extends find := by
  intro name
  unfold init netOf
  cases found : find name with
  | none => exact .inr ⟨by simp [found], rfl⟩
  | some net => exact .inl (by simp [found])

theorem ensureNetBinding_eq (ext : st.Extends find) (netName : NetName) :
    ((st.ensureNetBinding netName).1.Extends find ∧ (st.ensureNetBinding netName).1.pinNet = st.pinNet) ∧
      (st.ensureNetBinding netName).2 = netOf find netName := by
  unfold ensureNetBinding
  rcases ext netName with known | ⟨unknown, unbound⟩
  · rw [known]
    exact ⟨⟨ext, rfl⟩, rfl⟩
  · rw [unknown]
    have made : netOf find netName = .made netName := by simp [netOf,unbound]
    refine ⟨⟨?_, rfl⟩, made.symm⟩
    intro name
    by_cases same : name = netName
    · subst same
      left
      rw [made]
      exact Function.update_self ..
    · simp only [Function.update_of_ne same]
      exact ext name

theorem makeLeafPin_eq (ext : st.Extends find) (pin : ℕ) (netName : Option NetName) :
    (st.makeLeafPin pin netName).Extends find ∧ (st.makeLeafPin pin netName).pinNet =
      match netName with
      | none => st.pinNet
      | some netName => Function.update st.pinNet pin (some (some (netOf find netName))) := by
  cases netName with
  | none => exact ⟨ext, rfl⟩
  | some netName =>
    obtain ⟨⟨ext', pins⟩, net⟩ := ensureNetBinding_eq ext netName
    refine ⟨ext', ?_⟩
    change Function.update (st.ensureNetBinding netName).1.pinNet pin (some (some (st.ensureNetBinding netName).2)) = _
    rw [pins,net]

end Linked
end Bindings

section References
variable {cell : LibertyCell} {declaration : Declarations} {vpins : List VerilogNetPortRefScalarNet}
    {vpin : VerilogNetPortRefScalarNet} {pin : ℕ}

def references (cell : LibertyCell) (vpins : List VerilogNetPortRefScalarNet) (pin : ℕ) :
    List VerilogNetPortRefScalarNet :=
  vpins.filter fun vpin => cell.pinIndex vpin == some pin

def IsOneBit (declaration : Declarations) (vpin : VerilogNetPortRefScalarNet) : Bool :=
  vpin.hasNet && vpin.net.size declaration == 1

/-- The net of the last reference by reference. -/
def lastOneBit (cell : LibertyCell) (declaration : Declarations) (vpins : List VerilogNetPortRefScalarNet) (pin : ℕ) :
    Option NetName :=
  ((references cell vpins pin).filter (IsOneBit declaration)).getLast?.bind (·.netName)

theorem references_concat (vpins : List VerilogNetPortRefScalarNet) (vpin : VerilogNetPortRefScalarNet) (pin : ℕ) :
    references cell (vpins ++ [vpin]) pin = references cell vpins pin ++ if cell.pinIndex vpin = some pin then [vpin]
    else [] := by
  unfold references
  rw [List.filter_append]
  by_cases here : cell.pinIndex vpin = some pin <;> simp [here]

theorem netNames_eq (vpins : List VerilogNetPortRefScalarNet) (pin : ℕ) :
    cell.netNames vpins pin = (references cell vpins pin).getLast?.map (·.netName) := by
  induction vpins using List.reverseRecOn with
  | nil => rfl
  | append_singleton vpins vpin ih =>
    have step : cell.netNames (vpins ++ [vpin]) = cell.setNetName (cell.netNames vpins) vpin := by
      simp [LibertyCell.netNames]
    rw [step,references_concat,LibertyCell.setNetName]
    cases index : cell.pinIndex vpin with
    | none => simpa using ih
    | some other =>
      by_cases here : other = pin
      · subst here
        simp
      · have apart : ¬some other = some pin := by simpa using here
        rw [if_neg apart,List.append_nil,← ih]
        exact Function.update_of_ne (Ne.symm here) _ _

theorem lastOneBit_concat (vpins : List VerilogNetPortRefScalarNet) (vpin : VerilogNetPortRefScalarNet) (pin : ℕ) :
    lastOneBit cell declaration (vpins ++ [vpin]) pin =
      if cell.pinIndex vpin = some pin ∧
        IsOneBit declaration vpin then vpin.netName else lastOneBit cell declaration vpins pin := by
  unfold lastOneBit
  rw [references_concat,List.filter_append]
  by_cases here : cell.pinIndex vpin = some pin
  · by_cases oneBit : IsOneBit declaration vpin
    · simp [here,oneBit]
    · simp [here,oneBit]
  · simp [here]

end References

section Linking
variable {ν : Type} {find : NetName → Option ν} {st : Linked ν} {cell : LibertyCell} {declaration : Declarations}
  {vpins : List VerilogNetPortRefScalarNet} {vpin : VerilogNetPortRefScalarNet} {pin : ℕ}

namespace Linked

theorem makeLibertyInst_eq (netNames : ℕ → Option (Option NetName)) (ext : st.Extends find) (pin : ℕ) :
    (st.makeLibertyInst cell declaration netNames).pinNet pin = if pin ∈ cell.portBits then
      some ((netNames pin).join.map fun netName => netOf find (busReference declaration netName))
        else st.pinNet pin := by
  unfold makeLibertyInst
  generalize cell.portBits = pins
  induction pins generalizing st with
  | nil => simp
  | cons first pins ih =>
    have step : (st.makeLibertyPin declaration netNames first).Extends find ∧
      (st.makeLibertyPin declaration netNames first).pinNet =
        Function.update st.pinNet first
          (some ((netNames first).join.map fun netName => netOf find (busReference declaration netName))) := by
      unfold makeLibertyPin
      cases netNames first with
      | none => exact ⟨ext, rfl⟩
      | some netName =>
        cases netName with
        | none => exact ⟨ext, rfl⟩
        | some netName =>
          obtain ⟨⟨ext', same⟩, net⟩ := ensureNetBinding_eq ext (busReference declaration netName)
          refine ⟨ext', ?_⟩
          simp only [makePin,same,net]
          rfl
    rw [List.foldl_cons,ih step.1,step.2]
    by_cases later : pin ∈ pins
    · rw [if_pos later,if_pos (List.mem_cons_of_mem _ later)]
    · rw [if_neg later]
      by_cases here : pin = first
      · subst here
        rw [Function.update_self,if_pos List.mem_cons_self]
      · rw [Function.update_of_ne here,if_neg (List.not_mem_cons_of_ne_of_not_mem here later)]

theorem makePins_eq (cell : LibertyCell) (ext : st.Extends find) :
    (st.makePins cell).Extends find ∧ ∀ pin, (st.makePins cell).pinNet pin = if pin ∈ cell.portBits then some none
    else st.pinNet pin := by
  unfold makePins
  generalize cell.portBits = pins
  induction pins generalizing st with
  | nil => exact ⟨ext, fun pin => rfl⟩
  | cons first pins ih =>
    have made : (st.makePin first none).Extends find := ext
    obtain ⟨ext', rest⟩ := ih made
    refine ⟨ext', ?_⟩
    intro pin
    rw [List.foldl_cons,rest pin]
    by_cases later : pin ∈ pins
    · rw [if_pos later,if_pos (List.mem_cons_of_mem _ later)]
    · rw [if_neg later]
      by_cases here : pin = first
      · subst here
        rw [if_pos List.mem_cons_self]
        exact Function.update_self ..
      · rw [if_neg (List.not_mem_cons_of_ne_of_not_mem here later)]
        exact Function.update_of_ne here _ _

theorem scalarNameIterator_first (declaration : Declarations) (netName : NetName) :
    (scalarNameIterator declaration netName).hasNext ∧
    ((scalarNameIterator declaration netName).next declaration).1 = some (busReference declaration netName) := by
  unfold scalarNameIterator busReference
  cases declaration netName with
  | none => exact ⟨rfl, by rw [NameIterator.next]⟩
  | some dcl =>
    cases dcl with
    | scalar => exact ⟨rfl, by rw [NameIterator.next]⟩
    | bus fromIndex toIndex =>
      refine ⟨?_, by rw [NameIterator.next]⟩
      rw [NameIterator.hasNext_busNet]
      split <;> omega

theorem makeInstPin_reference (st : Linked ν) (vpin : VerilogNetPortRefScalarNet) (pin : ℕ) :
    (makeInstPin declaration (st, vpin.net.nameIterator declaration) pin).1 =
    st.makeLeafPin pin (vpin.netName.map (busReference declaration)) := by
  unfold VerilogNetPortRefScalarNet.net makeInstPin
  cases vpin.netName with
  | none => rfl
  | some netName =>
    obtain ⟨more, first⟩ := scalarNameIterator_first declaration netName
    simp only [NetExpressions.VerilogNet.nameIterator,more,if_true,first,Option.map_some]

theorem makeNamedInstPin_eq (declaration : Declarations) (ext : st.Extends find)
    (scalar : (cell.findLibertyPort vpin.name).any fun port => port.size == 1) :
    (st.makeNamedInstPin cell declaration vpin).Extends find ∧
    ∀ pin, (st.makeNamedInstPin cell declaration vpin).pinNet pin =
      if cell.pinIndex vpin = some pin ∧ IsOneBit declaration vpin then
        some (vpin.netName.map fun netName => netOf find (busReference declaration netName))
      else st.pinNet pin := by
  rw [Option.any_eq_true] at scalar
  obtain ⟨port, isPort, size⟩ := scalar
  rw [beq_iff_eq] at size
  obtain ⟨only, pins⟩ := List.length_eq_one_iff.1 size
  have index : cell.pinIndex vpin = some only := by
    rw [LibertyCell.pinIndex,isPort,Option.bind_some,pins]
    rfl
  unfold makeNamedInstPin IsOneBit
  rw [isPort]
  simp only [size,index,pins,List.foldl_cons,List.foldl_nil,makeInstPin_reference]
  cases hasNet : vpin.netName with
  | none => simpa [VerilogNetPortRefScalarNet.hasNet,hasNet,makeLeafPin] using ext
  | some netName =>
    by_cases oneBit : vpin.net.size declaration = 1
    · obtain ⟨ext', connects⟩ := makeLeafPin_eq ext only (some (busReference declaration netName))
      simp only [VerilogNetPortRefScalarNet.hasNet,hasNet,oneBit,Option.isSome_some,Bool.true_and,bne_self_eq_false,
        Bool.false_eq_true,
        if_false,Option.map_some,beq_self_eq_true,and_true,Option.some.injEq]
      refine ⟨ext', ?_⟩
      intro pin
      rw [connects]
      by_cases here : only = pin
      · subst here
        rw [if_pos rfl]
        exact Function.update_self ..
      · rw [if_neg here]
        exact Function.update_of_ne (Ne.symm here) _ _
    · have wide : (1 != vpin.net.size declaration) = true := by simpa using Ne.symm oneBit
      simpa [VerilogNetPortRefScalarNet.hasNet,hasNet,oneBit,wide] using ext

/-- Each pin is connected to the net of its last reference of one bit. -/
theorem makeModuleInstNetwork_eq (declaration : Declarations) (ext : st.Extends find)
    (scalar : ∀ vpin ∈ vpins, (cell.findLibertyPort vpin.name).any fun port => port.size == 1) :
    (st.makeModuleInstNetwork cell declaration vpins).Extends find ∧ ∀ pin,
      (st.makeModuleInstNetwork cell declaration vpins).pinNet pin = if pin ∈ cell.portBits then
        some ((lastOneBit cell declaration vpins pin).map fun netName => netOf find (busReference declaration netName))
          else st.pinNet pin := by
  induction vpins using List.reverseRecOn with
  | nil => exact makePins_eq cell ext
  | append_singleton vpins vpin ih =>
    have step : st.makeModuleInstNetwork cell declaration (vpins ++ [vpin]) =
        (st.makeModuleInstNetwork cell declaration vpins).makeNamedInstPin cell declaration vpin := by
      simp [makeModuleInstNetwork]
    obtain ⟨ext', before⟩ := ih fun vpin mem => scalar vpin (List.mem_append_left _ mem)
    have last := scalar vpin (List.mem_append_right _ List.mem_cons_self)
    obtain ⟨ext'', after⟩ := makeNamedInstPin_eq declaration ext' last
    rw [step]
    refine ⟨ext'', ?_⟩
    intro pin
    rw [after pin,before pin,lastOneBit_concat]
    by_cases connects : cell.pinIndex vpin = some pin ∧ IsOneBit declaration vpin
    · have bit : pin ∈ cell.portBits := by
        obtain ⟨port, isPort, first⟩ := Option.bind_eq_some_iff.1 connects.1
        exact cell.bits_mem isPort (List.mem_of_mem_head? first)
      rw [if_pos connects,if_pos connects,if_pos bit]
    · rw [if_neg connects,if_neg connects]

end Linked
end Linking

section Equality
variable {ν : Type} {cell : LibertyCell} {vpins : List VerilogNetPortRefScalarNet}

/-- What the last reference of a pin is to be: of one bit; or without a net where no reference of the pin is of one bit;
or a wider bus whose first bit is on the net of the last reference of one bit. -/
def PinAgrees (cell : LibertyCell) (declaration : Declarations) (find : NetName → Option ν)
    (vpins : List VerilogNetPortRefScalarNet) (pin : ℕ) : Prop :=
  match (references cell vpins pin).getLast? with
  | none => True
  | some vpin =>
    match vpin.netName with
    | none => lastOneBit cell declaration vpins pin = none
    | some netName => IsOneBit declaration vpin ∨ ∃ other, lastOneBit cell declaration vpins pin = some other ∧
        SameNet find (Linked.busReference declaration netName) (Linked.busReference declaration other)

theorem pinAgrees_iff (declaration : Declarations) (find : NetName → Option ν) (pin : ℕ) :
    PinAgrees cell declaration find vpins pin ↔
    (cell.netNames vpins pin).join.map (fun netName => netOf find (Linked.busReference declaration netName)) =
      (lastOneBit cell declaration vpins pin).map fun netName =>
        netOf find (Linked.busReference declaration netName) := by
  rw [netNames_eq]
  unfold PinAgrees
  cases last : (references cell vpins pin).getLast? with
  | none =>
    have none : lastOneBit cell declaration vpins pin = none := by
      rw [List.getLast?_eq_none_iff] at last
      simp [lastOneBit,last]
    simp [none]
  | some vpin =>
    cases hasNet : vpin.netName with
    | none => simp [hasNet,eq_comm]
    | some netName =>
      by_cases oneBit : IsOneBit declaration vpin
      · have same : lastOneBit cell declaration vpins pin = some netName := by
          obtain ⟨before, references⟩ := List.getLast?_eq_some_iff.1 last
          rw [lastOneBit,references,List.filter_append]
          simp [oneBit,hasNet]
        simp [same,hasNet,oneBit]
      · cases general : lastOneBit cell declaration vpins pin with
        | none => simp [hasNet,oneBit]
        | some other => simp [hasNet,oneBit,netOf_eq_iff]

/-- The array and the references connect the pins to the same nets exactly where every pin agrees. -/
theorem makeLibertyInst_eq_iff (declaration : Declarations) (find : NetName → Option ν)
    (scalar : cell.hasScalarNamedPortRefs vpins) :
    ((Linked.init find).makeLibertyInst cell declaration (cell.netNames vpins)).pinNet =
        ((Linked.init find).makeModuleInstNetwork cell declaration vpins).pinNet ↔
      ∀ pin ∈ cell.portBits, PinAgrees cell declaration find vpins pin := by
  have ext := Linked.extends_init find
  have all : ∀ vpin ∈ vpins, (cell.findLibertyPort vpin.name).any fun port => port.size == 1 := by
    rw [LibertyCell.hasScalarNamedPortRefs,Bool.and_eq_true,List.all_eq_true] at scalar
    exact scalar.2
  have general := (Linked.makeModuleInstNetwork_eq declaration ext all).2
  constructor
  · intro same pin bit
    have here := congrFun same pin
    rw [Linked.makeLibertyInst_eq _ ext,general pin,if_pos bit,if_pos bit,Option.some.injEq] at here
    exact (pinAgrees_iff declaration find pin).2 here
  · intro agrees
    funext pin
    rw [Linked.makeLibertyInst_eq _ ext,general pin]
    by_cases bit : pin ∈ cell.portBits
    · rw [if_pos bit,if_pos bit,Option.some.injEq]
      exact (pinAgrees_iff declaration find pin).1 (agrees pin bit)
    · rw [if_neg bit,if_neg bit]

def oneInput : LibertyCell where
  findLibertyPort name := if name = ['A'] then some (.scalar 0) else none
  portBits := [0]
  bits_mem := by
    intro name port pin isPort mem
    split at isPort
    · cases isPort
      exact mem
    · cases isPort

def wideBus : Declarations := fun name => if name = ['b'] then some (.bus 1 0) else none

def repeatedReference : List VerilogNetPortRefScalarNet := [⟨['A'], some ['b']⟩, ⟨['A'], some ['n']⟩]

def busReferenceOnly : List VerilogNetPortRefScalarNet := [⟨['A'], some ['b']⟩]

theorem makeLibertyInst_repeated :
    ((Linked.init fun _ => (none : Option ℕ)).makeLibertyInst oneInput wideBus
    (oneInput.netNames repeatedReference)).pinNet =
    ((Linked.init fun _ => (none : Option ℕ)).makeModuleInstNetwork oneInput wideBus repeatedReference).pinNet := by
  apply (makeLibertyInst_eq_iff wideBus _ (by decide)).2
  intro pin bit
  rw [List.mem_singleton.1 bit]
  exact .inl (by decide)

/-- The array connects the first bit of a wide bus, and the reference is left out. -/
theorem makeLibertyInst_wide : oneInput.hasScalarNamedPortRefs busReferenceOnly ∧
    ((Linked.init fun _ => (none : Option ℕ)).makeLibertyInst oneInput wideBus
    (oneInput.netNames busReferenceOnly)).pinNet ≠
      ((Linked.init fun _ => (none : Option ℕ)).makeModuleInstNetwork oneInput wideBus busReferenceOnly).pinNet := by
  refine ⟨by decide, ?_⟩
  intro same
  have here := congrFun same 0
  have all : ∀ vpin ∈ busReferenceOnly, (oneInput.findLibertyPort vpin.name).any fun port => port.size == 1 := by decide
  rw [Linked.makeLibertyInst_eq _ (Linked.extends_init _),
    (Linked.makeModuleInstNetwork_eq _ (Linked.extends_init _) all).2] at here
  have connected : oneInput.netNames busReferenceOnly 0 = some (some ['b']) := rfl
  have leftOut : lastOneBit oneInput wideBus busReferenceOnly 0 = none := by decide
  rw [connected,leftOut] at here
  cases here

end Equality

end GTPower.LibertyInsts
