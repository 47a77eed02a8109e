import GTPower.NetConstants
import GTPower.VerilogAssigns

/-! Net expressions of a netlist: their sizes, and the names that their iterators give one after the other. -/
namespace GTPower.NetExpressions
open NetConstants

section Source

/-- A reference of a port may have no net. The references of bits and parts of a port are like those of scalar ports
here. -/
inductive VerilogNet
  | scalar (name : NetName)
  | bitSelect (name : NetName) (index : ℤ)
  | partSelect (name : NetName) (fromIndex toIndex : ℤ)
  | constant (text : List Char)
  | concat (nets : List VerilogNet)
  | portRefScalarNet (name : NetName) (netName : Option NetName)
  | portRefScalar (name : NetName) (net : VerilogNet)
  | portRefNull (name : NetName)

inductive VerilogDcl
  | scalar
  | bus (fromIndex toIndex : ℤ)

def VerilogDcl.size : VerilogDcl → ℕ
  | scalar => 1
  | bus fromIndex toIndex => (toIndex - fromIndex).natAbs + 1

abbrev Declarations := NetName → Option VerilogDcl

/-- Undeclared signals are size 1. -/
def verilogNetScalarSize (declaration : Declarations) (name : NetName) : ℕ :=
  ((declaration name).map VerilogDcl.size).getD 1

def partSize (fromIndex toIndex : ℤ) : ℕ :=
  (if toIndex > fromIndex then toIndex - fromIndex + 1 else fromIndex - toIndex + 1).toNat

/-- The constant is parsed when the net is made. -/
def constantBits (text : List Char) : List Bool := (parseConstant text).getD []

namespace VerilogNet

mutual
def size (declaration : Declarations) : VerilogNet → ℕ
  | scalar name => verilogNetScalarSize declaration name
  | bitSelect _ _ => 1
  | partSelect _ fromIndex toIndex => partSize fromIndex toIndex
  | constant text => (constantBits text).length
  | concat nets => sizes declaration nets
  | portRefScalarNet _ netName => ((netName.bind declaration).map VerilogDcl.size).getD 1
  | portRefScalar _ net => net.size declaration
  | portRefNull _ => 0

def sizes (declaration : Declarations) : List VerilogNet → ℕ
  | [] => 0
  | net :: nets => net.size declaration + sizes declaration nets
end

end VerilogNet

/-- The iterators of the nets. That of a concatenation holds the iterator of the current net. -/
inductive NameIterator
  | null
  | oneNet (name : Option NetName)
  | busNet (busName : NetName) (fromIndex toIndex index : ℤ)
  | constantNet (value : List Bool) (bitIndex : ℤ)
  | concatNet (nets : List VerilogNet) (netNameIter : NameIterator)

def scalarNameIterator (declaration : Declarations) (name : NetName) : NameIterator :=
  match declaration name with
  | some (.bus fromIndex toIndex) => .busNet name fromIndex toIndex fromIndex
  | _ => .oneNet (some name)

def VerilogNet.nameIterator (declaration : Declarations) : VerilogNet → NameIterator
  | scalar name => scalarNameIterator declaration name
  | bitSelect name index => .oneNet (some (verilogBusBitName name index))
  | partSelect name fromIndex toIndex => .busNet name fromIndex toIndex fromIndex
  | constant text => .constantNet (constantBits text) ((constantBits text).length - 1)
  | concat [] => .concatNet [] .null
  | concat (net :: nets) => .concatNet nets (net.nameIterator declaration)
  | portRefScalarNet _ none => .oneNet none
  | portRefScalarNet _ (some netName) => scalarNameIterator declaration netName
  | portRefScalar _ net => net.nameIterator declaration
  | portRefNull _ => .null

def constantName (bit : Bool) : NetName := if bit then oneNetName else zeroNetName

mutual
/-- Bound of the iterators that a net is still to get. -/
def VerilogNet.weight : VerilogNet → ℕ
  | concat nets => weights nets + 1
  | portRefScalar _ net => net.weight
  | _ => 0

def VerilogNet.weights : List VerilogNet → ℕ
  | [] => 0
  | net :: nets => net.weight + 1 + weights nets
end

namespace NameIterator

def hasNext : NameIterator → Bool
  | null => false
  | oneNet name => name.isSome
  | busNet _ fromIndex toIndex index => (toIndex > fromIndex && index ≤ toIndex) ||
    (toIndex ≤ fromIndex && index ≥ toIndex)
  | constantNet _ bitIndex => 0 ≤ bitIndex
  | concatNet nets netNameIter => netNameIter.hasNext || !nets.isEmpty

def weight : NameIterator → ℕ
  | concatNet nets netNameIter => VerilogNet.weights nets + netNameIter.weight + 1
  | _ => 0

theorem weight_scalarNameIterator (declaration : Declarations) (name : NetName) :
    (scalarNameIterator declaration name).weight = 0 := by
  unfold scalarNameIterator
  split <;> rfl

theorem weight_nameIterator_le (declaration : Declarations) : ∀ net :
    VerilogNet, (net.nameIterator declaration).weight ≤ net.weight
  | .scalar _ => (weight_scalarNameIterator ..).le
  | .bitSelect .. => le_rfl
  | .partSelect .. => le_rfl
  | .constant _ => le_rfl
  | .concat [] => Nat.le_refl _
  | .concat (net :: nets) => by
    have first := weight_nameIterator_le declaration net
    simp only [VerilogNet.nameIterator,weight,VerilogNet.weight,VerilogNet.weights]
    omega
  | .portRefScalarNet _ none => le_rfl
  | .portRefScalarNet _ (some _) => (weight_scalarNameIterator ..).le
  | .portRefScalar _ net => by
    rw [VerilogNet.nameIterator,VerilogNet.weight]
    exact weight_nameIterator_le declaration net
  | .portRefNull _ => le_rfl

/-- The first name and the iterator after it. Where the net after the current one has no names there is no name. -/
def next (declaration : Declarations) : NameIterator → Option NetName × NameIterator
  | null => (none, null)
  | oneNet name => (name, oneNet none)
  | busNet busName fromIndex toIndex index =>
    (some (verilogBusBitName busName index),
    busNet busName fromIndex toIndex (if toIndex > fromIndex then index + 1 else index - 1))
  | constantNet value bitIndex =>
    (some (constantName (value.getD bitIndex.toNat false)), constantNet value (bitIndex - 1))
  | concatNet nets netNameIter =>
    if netNameIter.hasNext then ((next declaration netNameIter).1, concatNet nets (next declaration netNameIter).2)
    else
      match nets with
      | [] => (none, concatNet [] netNameIter)
      | net :: nets =>
        if (net.nameIterator declaration).hasNext then
          ((next declaration (net.nameIterator declaration)).1,
            concatNet nets (next declaration (net.nameIterator declaration)).2)
        else (none, concatNet nets (net.nameIterator declaration))
  termination_by iter => iter.weight
  decreasing_by
    all_goals
      simp only [weight,VerilogNet.weights]
      first
        | omega
        | have below := weight_nameIterator_le declaration net
          omega

/-- All names of an iterator that has at most so many. -/
def names (declaration : Declarations) : ℕ → NameIterator → Option (List (Option NetName))
  | 0, iter => if iter.hasNext then none else some []
  | calls + 1, iter =>
    if iter.hasNext then (names declaration calls (iter.next declaration).2).map ((iter.next declaration).1 :: ·)
    else some []

end NameIterator
end Source

section Meaning

def baseNumber (baseCh : Char) : Option ℕ :=
  if baseCh = 'b' ∨ baseCh = 'B' then some 2
  else if baseCh = 'o' ∨ baseCh = 'O' then some 8
  else if baseCh = 'h' ∨ baseCh = 'H' then some 16
  else if baseCh = 'd' ∨ baseCh = 'D' then some 10
  else none

def constantNumber (text : List Char) : Option (ℕ × List Char) :=
  (constantBase text).bind fun baseDigits => (baseNumber baseDigits.1).map fun base => (base, baseDigits.2)

/-- A size, a known base, and digits of the base; the value of decimal digits is at most the greatest supported one. -/
def ValidConstant (text : List Char) : Prop :=
  0 ≤ constantSize text ∧ ∃ base digits, constantNumber text = some (base, digits) ∧
    (∀ ch ∈ withoutUnderscores digits, charValue base ch < base) ∧ (base = 10 → constantValue base digits ≤ 2 ^ 64 - 1)

/-- Decimal digits with leading zeros are not more than those of the greatest value, or no bit of the value is in the
size. -/
def FitConstant (text : List Char) : Prop :=
  ∀ digits, constantNumber text = some (10, digits) →
    (withoutUnderscores digits).length ≤ constant10MaxLength ∨
      constantValue 10 digits % 2 ^ (constantSize text).toNat = 0

/-- Binary digits of a value from the most significant one on. -/
def binaryNames (value size : ℕ) : List NetName :=
  (List.range size).reverse.map fun bit => constantName (value.testBit bit)

def constantNames (text : List Char) : List NetName :=
  let value := ((constantNumber text).map fun number => constantValue number.1 number.2).getD 0
  binaryNames (value % 2 ^ (constantSize text).toNat) (constantSize text).toNat

def scalarNames (declaration : Declarations) (name : NetName) : List NetName :=
  match declaration name with
  | some (.bus fromIndex toIndex) => busNames name fromIndex toIndex
  | _ => [name]

namespace VerilogNet

mutual
/-- Names of the bits, the most significant one first. -/
def bitNames (declaration : Declarations) : VerilogNet → List NetName
  | scalar name => scalarNames declaration name
  | bitSelect name index => [verilogBusBitName name index]
  | partSelect name fromIndex toIndex => busNames name fromIndex toIndex
  | constant text => constantNames text
  | concat nets => allBitNames declaration nets
  | portRefScalarNet _ none => []
  | portRefScalarNet _ (some netName) => scalarNames declaration netName
  | portRefScalar _ net => net.bitNames declaration
  | portRefNull _ => []

def allBitNames (declaration : Declarations) : List VerilogNet → List NetName
  | [] => []
  | net :: nets => net.bitNames declaration ++ allBitNames declaration nets
end

mutual
/-- References of ports have a net, and constants are valid. -/
def Accepted : VerilogNet → Prop
  | scalar _ => True
  | bitSelect _ _ => True
  | partSelect _ _ _ => True
  | constant text => ValidConstant text
  | concat nets => AllAccepted nets
  | portRefScalarNet _ netName => netName.isSome
  | portRefScalar _ net => net.Accepted
  | portRefNull _ => False

def AllAccepted : List VerilogNet → Prop
  | [] => True
  | net :: nets => net.Accepted ∧ AllAccepted nets
end

mutual
/-- Only constants of size zero. -/
def Blank : VerilogNet → Prop
  | scalar _ => False
  | bitSelect _ _ => False
  | partSelect _ _ _ => False
  | constant text => constantSize text = 0
  | concat nets => AllBlank nets
  | portRefScalarNet _ _ => False
  | portRefScalar _ net => net.Blank
  | portRefNull _ => True

def AllBlank : List VerilogNet → Prop
  | [] => True
  | net :: nets => net.Blank ∧ AllBlank nets
end

mutual
/-- Only the first net of a concatenation may be without bits. -/
def Fit : VerilogNet → Prop
  | scalar _ => True
  | bitSelect _ _ => True
  | partSelect _ _ _ => True
  | constant text => FitConstant text
  | concat [] => True
  | concat (net :: nets) => net.Fit ∧ LaterFit nets
  | portRefScalarNet _ _ => True
  | portRefScalar _ net => net.Fit
  | portRefNull _ => True

def LaterFit : List VerilogNet → Prop
  | [] => True
  | net :: nets => (net.Fit ∧ ¬net.Blank) ∧ LaterFit nets
end

/-- The iterator gives the names of the bits, as many as the size says. -/
def Expands (declaration : Declarations) (net : VerilogNet) : Prop :=
  (net.bitNames declaration).length = net.size declaration ∧
    ∃ calls, (net.nameIterator declaration).names declaration calls = some ((net.bitNames declaration).map some)

end VerilogNet
end Meaning

section Iterators
variable {declaration : Declarations} {net : VerilogNet} {nets : List VerilogNet} {iter : NameIterator}

def indexAt (fromIndex toIndex index : ℤ) (offset : ℕ) : ℤ :=
  if fromIndex < toIndex then index + offset else index - offset

def busNamesFrom (busName : NetName) (fromIndex toIndex index : ℤ) : List NetName :=
  (List.range (if fromIndex < toIndex then toIndex - index + 1 else index - toIndex + 1).toNat).map fun offset =>
    verilogBusBitName busName (indexAt fromIndex toIndex index offset)

def constantNamesBelow (value : List Bool) (bitIndex : ℤ) : List NetName :=
  (List.range (bitIndex + 1).toNat).reverse.map fun bit => constantName (value.getD bit false)

namespace VerilogNet

mutual
/-- The names that the iterator of a net gives. There is one also for each later net without names. -/
def spelled (declaration : Declarations) : VerilogNet → List (Option NetName)
  | scalar name => (scalarNames declaration name).map some
  | bitSelect name index => [some (verilogBusBitName name index)]
  | partSelect name fromIndex toIndex => (busNames name fromIndex toIndex).map some
  | constant text => (constantBits text).reverse.map fun bit => some (constantName bit)
  | concat [] => []
  | concat (net :: nets) => net.spelled declaration ++ spelledLater declaration nets
  | portRefScalarNet _ none => []
  | portRefScalarNet _ (some netName) => (scalarNames declaration netName).map some
  | portRefScalar _ net => net.spelled declaration
  | portRefNull _ => []

def spelledLater (declaration : Declarations) : List VerilogNet → List (Option NetName)
  | [] => []
  | net :: nets => (if net.spelled declaration = [] then [none] else net.spelled declaration) ++
    spelledLater declaration nets
end

theorem spelledLater_eq_nil : spelledLater declaration nets = [] ↔ nets = [] := by
  cases nets with
  | nil => simp [spelledLater]
  | cons net nets =>
    rw [spelledLater,List.append_eq_nil_iff]
    constructor
    · rintro ⟨empty, -⟩
      split at empty
      · cases empty
      · contradiction
    · intro none
      cases none

end VerilogNet

namespace NameIterator

def rest (declaration : Declarations) : NameIterator → List (Option NetName)
  | null => []
  | oneNet name => name.toList.map some
  | busNet busName fromIndex toIndex index => (busNamesFrom busName fromIndex toIndex index).map some
  | constantNet value bitIndex => (constantNamesBelow value bitIndex).map some
  | concatNet nets netNameIter => netNameIter.rest declaration ++ VerilogNet.spelledLater declaration nets

theorem busNamesFrom_start (busName : NetName) (fromIndex toIndex : ℤ) :
    busNamesFrom busName fromIndex toIndex fromIndex = busNames busName fromIndex toIndex := by
  unfold busNamesFrom busNames
  have count : (if fromIndex < toIndex then toIndex - fromIndex + 1 else fromIndex - toIndex + 1).toNat =
    (toIndex - fromIndex).natAbs + 1 := by
    split <;> omega
  rw [count]
  simp only [List.bind_eq_flatMap,List.pure_def]
  rw [← List.map_eq_flatMap,List.map_map]
  rfl

theorem busNamesFrom_cons (busName : NetName) {fromIndex toIndex index : ℤ}
    (more : if fromIndex < toIndex then index ≤ toIndex else toIndex ≤ index) :
    busNamesFrom busName fromIndex toIndex index = verilogBusBitName busName index ::
      busNamesFrom busName fromIndex toIndex (if toIndex > fromIndex then index + 1 else index - 1) := by
  unfold busNamesFrom
  by_cases up : fromIndex < toIndex
  · simp only [if_pos up] at more ⊢
    have count : (toIndex - index + 1).toNat = (toIndex - (index + 1) + 1).toNat + 1 := by omega
    rw [count,List.range_succ_eq_map,List.map_cons,List.map_map]
    congr 2
    · simp [indexAt]
    · funext offset
      simp only [Function.comp,indexAt,if_pos up]
      congr 1
      push_cast
      ring
  · simp only [if_neg up,gt_iff_lt] at more ⊢
    have count : (index - toIndex + 1).toNat = (index - 1 - toIndex + 1).toNat + 1 := by omega
    rw [count,List.range_succ_eq_map,List.map_cons,List.map_map]
    congr 2
    · simp [indexAt]
    · funext offset
      simp only [Function.comp,indexAt,if_neg up]
      congr 1
      push_cast
      ring

theorem constantNamesBelow_cons (value : List Bool) {bitIndex : ℤ} (more : 0 ≤ bitIndex) :
    constantNamesBelow value bitIndex = constantName (value.getD bitIndex.toNat false) ::
    constantNamesBelow value (bitIndex - 1) := by
  unfold constantNamesBelow
  have count : (bitIndex + 1).toNat = (bitIndex - 1 + 1).toNat + 1 := by omega
  have last : (bitIndex - 1 + 1).toNat = bitIndex.toNat := by omega
  rw [count,List.range_succ,List.reverse_append,List.reverse_singleton,List.singleton_append,List.map_cons,last]

theorem constantNamesBelow_length (value : List Bool) :
    constantNamesBelow value (value.length - 1) = value.reverse.map constantName := by
  unfold constantNamesBelow
  have count : ((value.length : ℤ) - 1 + 1).toNat = value.length := by omega
  rw [count]
  apply List.ext_getElem
  · simp
  · intro bit inside inside'
    simp only [List.length_map,List.length_reverse,List.length_range] at inside
    rw [List.getElem_map,List.getElem_map,List.getElem_reverse,List.getElem_reverse,List.getElem_range,
      List.getD_eq_getElem]
    · simp
    · simp only [List.length_range]
      omega

theorem rest_scalarNameIterator (declaration : Declarations) (name : NetName) :
    (scalarNameIterator declaration name).rest declaration = (scalarNames declaration name).map some := by
  unfold scalarNameIterator scalarNames
  split
  · rw [rest,busNamesFrom_start]
  · rfl

theorem rest_nameIterator (declaration : Declarations) : ∀ net :
    VerilogNet, (net.nameIterator declaration).rest declaration = net.spelled declaration
  | .scalar name => by rw [VerilogNet.nameIterator,rest_scalarNameIterator,VerilogNet.spelled]
  | .bitSelect .. => by rw [VerilogNet.spelled]; rfl
  | .partSelect .. => by rw [VerilogNet.nameIterator,rest,busNamesFrom_start,VerilogNet.spelled]
  | .constant text => by
    rw [VerilogNet.nameIterator,rest,constantNamesBelow_length,VerilogNet.spelled,List.map_map]
    rfl
  | .concat [] => by rw [VerilogNet.spelled]; rfl
  | .concat (net :: nets) => by rw [VerilogNet.nameIterator,rest,rest_nameIterator declaration net,VerilogNet.spelled]
  | .portRefScalarNet _ none => by rw [VerilogNet.spelled]; rfl
  | .portRefScalarNet _ (some _) => by rw [VerilogNet.nameIterator,rest_scalarNameIterator,VerilogNet.spelled]
  | .portRefScalar _ net => by rw [VerilogNet.nameIterator,VerilogNet.spelled,rest_nameIterator declaration net]
  | .portRefNull _ => by rw [VerilogNet.spelled]; rfl

theorem hasNext_busNet {busName : NetName} {fromIndex toIndex index : ℤ} :
    (busNet busName fromIndex toIndex index).hasNext ↔
    if fromIndex < toIndex then index ≤ toIndex else toIndex ≤ index := by
  rw [hasNext]
  split <;> simp <;> omega

theorem hasNext_iff : iter.hasNext ↔ iter.rest declaration ≠ [] := by
  induction iter with
  | null => simp [hasNext,rest]
  | oneNet name => cases name <;> simp [hasNext,rest]
  | busNet busName fromIndex toIndex index =>
    rw [hasNext_busNet,rest,ne_eq,List.map_eq_nil_iff]
    constructor
    · intro more
      rw [busNamesFrom_cons busName more]
      exact List.cons_ne_nil _ _
    · intro some
      by_contra none
      apply some
      rw [busNamesFrom,List.map_eq_nil_iff,List.range_eq_nil]
      split at none <;> simp [*] <;> omega
  | constantNet value bitIndex =>
    rw [hasNext,rest,ne_eq,List.map_eq_nil_iff,decide_eq_true_iff]
    constructor
    · intro more
      rw [constantNamesBelow_cons value more]
      exact List.cons_ne_nil _ _
    · intro some
      by_contra none
      apply some
      rw [constantNamesBelow,List.map_eq_nil_iff,List.reverse_eq_nil_iff,List.range_eq_nil]
      omega
  | concatNet nets netNameIter ih =>
    rw [hasNext,rest,Bool.or_eq_true,ih,ne_eq,ne_eq,List.append_eq_nil_iff,VerilogNet.spelledLater_eq_nil,not_and_or]
    cases nets <;> simp

theorem next_rest (more : iter.hasNext) :
    iter.rest declaration = (iter.next declaration).1 :: (iter.next declaration).2.rest declaration := by
  induction iter using next.induct declaration with
  | case1 => cases more
  | case2 name =>
    cases name with
    | none => cases more
    | some name => simp [next,rest]
  | case3 busName fromIndex toIndex index =>
    rw [next,rest,busNamesFrom_cons busName (hasNext_busNet.1 more),rest,List.map_cons]
  | case4 value bitIndex =>
    rw [hasNext,decide_eq_true_iff] at more
    rw [next,rest,constantNamesBelow_cons value more,rest,List.map_cons]
  | case5 nets netNameIter current ih =>
    rw [next.eq_def]
    simp only [if_pos current]
    rw [rest,ih current,rest]
    rfl
  | case6 netNameIter current =>
    simp only [hasNext,List.isEmpty_nil,Bool.not_true,Bool.or_false] at more
    exact absurd more current
  | case7 netNameIter current net nets later ih =>
    have done : netNameIter.rest declaration = [] := by
      by_contra left
      exact current (hasNext_iff.2 left)
    have names : net.spelled declaration ≠ [] := by
      rw [← rest_nameIterator]
      exact hasNext_iff.1 later
    rw [next.eq_def]
    simp only [if_neg current,if_pos later]
    rw [rest,done,List.nil_append,VerilogNet.spelledLater,if_neg names,← rest_nameIterator,ih later]
    rfl
  | case8 netNameIter current net nets later =>
    have done : netNameIter.rest declaration = [] := by
      by_contra left
      exact current (hasNext_iff.2 left)
    have names : (net.nameIterator declaration).rest declaration = [] := by
      by_contra left
      exact later (hasNext_iff.2 left)
    rw [next.eq_def]
    simp only [if_neg current,if_neg later]
    rw [rest,done,List.nil_append,VerilogNet.spelledLater,if_pos ((rest_nameIterator ..).symm.trans names),rest,names]
    rfl

theorem names_eq (calls : ℕ) (iter : NameIterator) :
    iter.names declaration calls = if (iter.rest declaration).length ≤ calls then some (iter.rest declaration)
    else none := by
  induction calls generalizing iter with
  | zero =>
    rw [names]
    by_cases more : iter.hasNext
    · have left : 0 < (iter.rest declaration).length := List.length_pos_iff.2 (hasNext_iff.1 more)
      rw [if_pos more,if_neg (by omega)]
    · have done : iter.rest declaration = [] := by
        by_contra left
        exact more (hasNext_iff.2 left)
      rw [if_neg more,done]
      rfl
  | succ calls ih =>
    rw [names]
    by_cases more : iter.hasNext
    · rw [if_pos more,ih,next_rest more,List.length_cons]
      split
      · rw [if_pos (by omega)]
        rfl
      · rw [if_neg (by omega)]
        rfl
    · have done : iter.rest declaration = [] := by
        by_contra left
        exact more (hasNext_iff.2 left)
      rw [if_neg more,done]
      rfl

end NameIterator
end Iterators

section Constants
variable {text digits : List Char} {base : ℕ}

theorem constantName_injective : Function.Injective constantName := by
  intro bit bit' same
  cases bit <;> cases bit' <;> first | rfl | cases same

theorem constantNumber_eq (number : constantNumber text = some (base, digits)) :
    ∃ baseCh, constantBase text = some (baseCh, digits) ∧ baseNumber baseCh = some base := by
  simp only [constantNumber,Option.bind_eq_some_iff,Option.map_eq_some_iff,Prod.mk.injEq] at number
  obtain ⟨⟨baseCh, found⟩, isBase, base', known, rfl, rfl⟩ := number
  exact ⟨baseCh, isBase, known⟩

theorem constantBits_eq (number : constantNumber text = some (base, digits)) (positive : 0 ≤ constantSize text) :
    constantBits text = if base = 10 then parseConstant10 digits (constantSize text).toNat
    else lowBits (constantValue base digits) (constantSize text).toNat := by
  obtain ⟨baseCh, isBase, known⟩ := constantNumber_eq number
  unfold constantBits parseConstant
  rw [isBase]
  simp only [Option.bind_eq_bind,Option.bind_some,if_neg (Int.not_lt.2 positive)]
  unfold baseNumber at known
  by_cases binary : baseCh = 'b' ∨ baseCh = 'B'
  · rw [if_pos binary,Option.some.injEq] at known
    subst known
    rw [if_pos binary,Option.getD_some,if_neg (by decide)]
    exact scanDigits_eq (by norm_num) digits _
  · rw [if_neg binary] at known ⊢
    by_cases octal : baseCh = 'o' ∨ baseCh = 'O'
    · rw [if_pos octal,Option.some.injEq] at known
      subst known
      rw [if_pos octal,Option.getD_some,if_neg (by decide)]
      exact scanDigits_eq (by norm_num) digits _
    · rw [if_neg octal] at known ⊢
      by_cases hexadecimal : baseCh = 'h' ∨ baseCh = 'H'
      · rw [if_pos hexadecimal,Option.some.injEq] at known
        subst known
        rw [if_pos hexadecimal,Option.getD_some,if_neg (by decide)]
        exact scanDigits_eq (by norm_num) digits _
      · rw [if_neg hexadecimal] at known ⊢
        by_cases decimal : baseCh = 'd' ∨ baseCh = 'D'
        · rw [if_pos decimal,Option.some.injEq] at known
          subst known
          rw [if_pos decimal]
          rfl
        · rw [if_neg decimal] at known
          cases known

theorem isDigit_of_charValue_lt {ch : Char} (digit : charValue 10 ch < 10) : ch.isDigit := by
  unfold charValue at digit
  by_cases isDigit : ch.isDigit
  · exact isDigit
  · rw [if_neg isDigit] at digit
    by_cases lower : 'a' ≤ ch ∧ ch ≤ 'z'
    · have low : 97 ≤ ch.toNat := lower.1
      rw [if_pos lower] at digit
      omega
    · rw [if_neg lower] at digit
      by_cases upper : 'A' ≤ ch ∧ ch ≤ 'Z'
      · have low : 65 ≤ ch.toNat := upper.1
        rw [if_pos upper] at digit
        omega
      · rw [if_neg upper] at digit
        exact absurd digit (lt_irrefl _)

theorem constantNames_eq (number : constantNumber text = some (base, digits)) :
    constantNames text = (lowBits (constantValue base digits) (constantSize text).toNat).reverse.map constantName := by
  rw [← lowBits_mod]
  unfold constantNames binaryNames lowBits
  rw [number,← List.map_reverse,List.map_map]
  rfl

theorem length_constantNames (text : List Char) : (constantNames text).length = (constantSize text).toNat := by
  simp [constantNames,binaryNames]

theorem length_constantBits (valid : ValidConstant text) : (constantBits text).length = (constantSize text).toNat := by
  obtain ⟨positive, base, digits, number, -, -⟩ := valid
  rw [constantBits_eq number positive]
  split
  · unfold parseConstant10
    simp only
    split <;> simp
  · exact length_lowBits ..

/-- The bits of a valid constant are those of its value, but for decimal digits that are too many. -/
theorem constantBits_names (valid : ValidConstant text) :
    (constantBits text).reverse.map constantName = constantNames text ↔ FitConstant text := by
  obtain ⟨positive, base, digits, number, all, supported⟩ := valid
  rw [constantNames_eq number,constantName_injective.list_map.eq_iff,List.reverse_inj,constantBits_eq number positive]
  by_cases decimal : base = 10
  · subst decimal
    have allDigits : ∀ ch ∈ withoutUnderscores digits, ch.isDigit := fun ch mem => isDigit_of_charValue_lt (all ch mem)
    have fit : FitConstant text ↔ (withoutUnderscores digits).length ≤ constant10MaxLength ∨
        constantValue 10 digits % 2 ^ (constantSize text).toNat = 0 := by
      constructor
      · intro fit
        exact fit digits number
      · intro fit digits' number'
        rw [number] at number'
        cases number'
        exact fit
    rw [if_pos rfl,parseConstant10_eq allDigits (supported rfl),fit]
    by_cases few : (withoutUnderscores digits).length ≤ constant10MaxLength
    · simp [few]
    · rw [if_neg few,eq_comm,lowBits_eq_replicate]
      simp [few]
  · rw [if_neg decimal]
    apply iff_of_true rfl
    intro digits' number'
    rw [number] at number'
    cases number'
    exact absurd rfl decimal

end Constants

namespace VerilogNet
variable {net : VerilogNet} {declaration : Declarations}

theorem length_busNames (busName : NetName) (fromIndex toIndex : ℤ) :
    (busNames busName fromIndex toIndex).length = (toIndex - fromIndex).natAbs + 1 := by
  rw [← NameIterator.busNamesFrom_start,busNamesFrom,List.length_map,List.length_range]
  split <;> omega

theorem length_scalarNames (declaration : Declarations) (name : NetName) :
    (scalarNames declaration name).length = verilogNetScalarSize declaration name := by
  unfold scalarNames verilogNetScalarSize
  split
  · rename_i fromIndex toIndex isBus
    rw [isBus,length_busNames]
    rfl
  · rename_i notBus
    cases declared : declaration name with
    | none => rfl
    | some dcl =>
      cases dcl with
      | scalar => rfl
      | bus fromIndex toIndex => exact absurd declared (notBus fromIndex toIndex)

theorem scalarNames_ne_nil (declaration : Declarations) (name : NetName) : scalarNames declaration name ≠ [] := by
  rw [← List.length_pos_iff,length_scalarNames]
  unfold verilogNetScalarSize
  cases declaration name with
  | none => exact Nat.one_pos
  | some dcl =>
    cases dcl with
    | scalar => exact Nat.one_pos
    | bus fromIndex toIndex => exact Nat.succ_pos _

theorem partSize_eq (fromIndex toIndex : ℤ) : partSize fromIndex toIndex = (toIndex - fromIndex).natAbs + 1 := by
  unfold partSize
  split <;> omega

mutual
theorem length_bitNames : ∀ net : VerilogNet, net.Accepted → (net.bitNames declaration).length = net.size declaration
  | .scalar name, _ => by rw [bitNames,size,length_scalarNames]
  | .bitSelect .., _ => by rw [bitNames,size]; rfl
  | .partSelect .., _ => by rw [bitNames,size,length_busNames,partSize_eq]
  | .constant text, valid => by
    rw [Accepted] at valid
    rw [bitNames,size,length_constantBits valid,length_constantNames]
  | .concat nets, all => by
    rw [Accepted] at all
    rw [bitNames,size,length_allBitNames nets all]
  | .portRefScalarNet _ none, isNet => by
    rw [Accepted] at isNet
    cases isNet
  | .portRefScalarNet _ (some netName), _ => by
    rw [bitNames,size,length_scalarNames]
    rfl
  | .portRefScalar _ net, accepted => by
    rw [Accepted] at accepted
    rw [bitNames,size,length_bitNames net accepted]
  | .portRefNull _, null => by
    rw [Accepted] at null
    cases null

theorem length_allBitNames : ∀ nets : List VerilogNet, AllAccepted nets →
    (allBitNames declaration nets).length = sizes declaration nets
  | [], _ => by rw [allBitNames,sizes]; rfl
  | net :: nets, accepted => by
    rw [AllAccepted] at accepted
    rw [allBitNames,sizes,List.length_append,length_bitNames net accepted.1,length_allBitNames nets accepted.2]
end

mutual
theorem bitNames_eq_nil : ∀ net : VerilogNet, net.Accepted → (net.bitNames declaration = [] ↔ net.Blank)
  | .scalar name, _ => by
    rw [bitNames,Blank]
    exact iff_false_intro (scalarNames_ne_nil declaration _)
  | .bitSelect .., _ => by
    rw [bitNames,Blank]
    exact iff_false_intro (List.cons_ne_nil _ _)
  | .partSelect .., _ => by
    rw [bitNames,Blank,← List.length_eq_zero_iff,length_busNames]
    exact iff_false_intro (Nat.succ_ne_zero _)
  | .constant text, valid => by
    rw [Accepted] at valid
    rw [bitNames,Blank,← List.length_eq_zero_iff,length_constantNames]
    have positive := valid.1
    omega
  | .concat nets, all => by
    rw [Accepted] at all
    rw [bitNames,Blank]
    exact allBitNames_eq_nil nets all
  | .portRefScalarNet _ none, isNet => by
    rw [Accepted] at isNet
    cases isNet
  | .portRefScalarNet _ (some netName), _ => by
    rw [bitNames,Blank]
    exact iff_false_intro (scalarNames_ne_nil declaration _)
  | .portRefScalar _ net, accepted => by
    rw [Accepted] at accepted
    rw [bitNames,Blank]
    exact bitNames_eq_nil net accepted
  | .portRefNull _, null => by
    rw [Accepted] at null
    cases null

theorem allBitNames_eq_nil : ∀ nets : List VerilogNet, AllAccepted nets →
    (allBitNames declaration nets = [] ↔ AllBlank nets)
  | [], _ => by rw [allBitNames,AllBlank]; exact iff_of_true rfl trivial
  | net :: nets, accepted => by
    rw [AllAccepted] at accepted
    rw [allBitNames,AllBlank,List.append_eq_nil_iff,bitNames_eq_nil net accepted.1,allBitNames_eq_nil nets accepted.2]
end

mutual
theorem length_spelled : ∀ net : VerilogNet, net.Accepted → none ∉ net.spelled declaration →
    (net.spelled declaration).length = (net.bitNames declaration).length
  | .scalar name, _, _ => by rw [bitNames,spelled,List.length_map]
  | .bitSelect .., _, _ => by rw [bitNames,spelled]; rfl
  | .partSelect .., _, _ => by rw [bitNames,spelled,List.length_map]
  | .constant text, valid, _ => by
    rw [Accepted] at valid
    rw [bitNames,spelled,length_constantNames,List.length_map,List.length_reverse,length_constantBits valid]
  | .concat [], _, _ => by rw [bitNames,spelled,allBitNames]; rfl
  | .concat (net :: nets), all, named => by
    rw [Accepted,AllAccepted] at all
    rw [spelled,List.mem_append,not_or] at named
    rw [spelled,bitNames,allBitNames,List.length_append,List.length_append,length_spelled net all.1 named.1,
      length_spelledLater nets all.2 named.2]
  | .portRefScalarNet _ none, isNet, _ => by
    rw [Accepted] at isNet
    cases isNet
  | .portRefScalarNet _ (some netName), _, _ => by rw [bitNames,spelled,List.length_map]
  | .portRefScalar _ net, accepted, named => by
    rw [Accepted] at accepted
    rw [spelled] at named ⊢
    rw [bitNames,length_spelled net accepted named]
  | .portRefNull _, null, _ => by
    rw [Accepted] at null
    cases null

theorem length_spelledLater : ∀ nets : List VerilogNet, AllAccepted nets → none ∉ spelledLater declaration nets →
    (spelledLater declaration nets).length = (allBitNames declaration nets).length
  | [], _, _ => by rw [allBitNames,spelledLater]; rfl
  | net :: nets, accepted, named => by
    rw [AllAccepted] at accepted
    rw [spelledLater,List.mem_append,not_or] at named
    have names : net.spelled declaration ≠ [] := by
      intro empty
      rw [if_pos empty] at named
      exact named.1 List.mem_cons_self
    rw [if_neg names] at named
    rw [spelledLater,if_neg names,allBitNames,List.length_append,List.length_append,
      length_spelled net accepted.1 named.1,
      length_spelledLater nets accepted.2 named.2]
end

theorem none_not_mem_map_some {names : List NetName} : none ∉ names.map some := by simp

mutual
theorem spelled_eq : ∀ net : VerilogNet, net.Accepted →
    (net.spelled declaration = (net.bitNames declaration).map some ↔ net.Fit)
  | .scalar name, _ => by
    rw [bitNames,spelled,Fit]
    exact iff_of_true rfl trivial
  | .bitSelect .., _ => by
    rw [bitNames,spelled,Fit]
    exact iff_of_true rfl trivial
  | .partSelect .., _ => by
    rw [bitNames,spelled,Fit]
    exact iff_of_true rfl trivial
  | .constant text, valid => by
    rw [Accepted] at valid
    have names : (constantBits text).reverse.map (fun bit => some (constantName bit)) =
    ((constantBits text).reverse.map constantName).map some := by
      rw [List.map_map]
      rfl
    rw [bitNames,spelled,Fit,names,(Option.some_injective _).list_map.eq_iff]
    exact constantBits_names valid
  | .concat [], _ => by
    rw [bitNames,allBitNames,spelled,Fit]
    exact iff_of_true rfl trivial
  | .concat (net :: nets), all => by
    rw [Accepted,AllAccepted] at all
    rw [bitNames,allBitNames,spelled,Fit,← spelled_eq net all.1,← spelledLater_eq nets all.2,List.map_append]
    constructor
    · intro equal
      have named : none ∉ net.spelled declaration := by
        intro mem
        have named := List.mem_append_left (spelledLater declaration nets) mem
        rw [equal,← List.map_append] at named
        exact none_not_mem_map_some named
      apply List.append_inj equal
      rw [List.length_map]
      exact length_spelled net all.1 named
    · rintro ⟨first, later⟩
      rw [first,later]
  | .portRefScalarNet _ none, isNet => by
    rw [Accepted] at isNet
    cases isNet
  | .portRefScalarNet _ (some netName), _ => by
    rw [bitNames,spelled,Fit]
    exact iff_of_true rfl trivial
  | .portRefScalar _ net, accepted => by
    rw [Accepted] at accepted
    rw [bitNames,spelled,Fit]
    exact spelled_eq net accepted
  | .portRefNull _, null => by
    rw [Accepted] at null
    cases null

theorem spelledLater_eq : ∀ nets : List VerilogNet, AllAccepted nets →
    (spelledLater declaration nets = (allBitNames declaration nets).map some ↔ LaterFit nets)
  | [], _ => by
    rw [allBitNames,spelledLater,LaterFit]
    exact iff_of_true rfl trivial
  | net :: nets, accepted => by
    rw [AllAccepted] at accepted
    have blank : net.bitNames declaration = [] ↔ net.Blank := bitNames_eq_nil net accepted.1
    rw [allBitNames,spelledLater,LaterFit,← spelled_eq net accepted.1,← blank,← spelledLater_eq nets accepted.2,
      List.map_append]
    constructor
    · intro equal
      have named : none ∉ if net.spelled declaration = [] then [none] else net.spelled declaration := by
        intro mem
        have named := List.mem_append_left (spelledLater declaration nets) mem
        rw [equal,← List.map_append] at named
        exact none_not_mem_map_some named
      have names : net.spelled declaration ≠ [] := by
        intro empty
        rw [if_pos empty] at named
        exact named List.mem_cons_self
      rw [if_neg names] at equal named
      have length := length_spelled net accepted.1 named
      have parts := List.append_inj equal (by rw [List.length_map]; exact length)
      refine ⟨⟨parts.1, ?_⟩, parts.2⟩
      intro empty
      rw [empty,List.length_nil,List.length_eq_zero_iff] at length
      exact names length
    · rintro ⟨⟨first, bits⟩, later⟩
      have names : net.spelled declaration ≠ [] := by
        rw [first,ne_eq,List.map_eq_nil_iff]
        exact bits
      rw [if_neg names,first,later]
end


theorem expands_iff_spelled (declaration : Declarations) (accepted : net.Accepted) :
    net.Expands declaration ↔ net.spelled declaration = (net.bitNames declaration).map some := by
  rw [← NameIterator.rest_nameIterator]
  constructor
  · rintro ⟨-, calls, gives⟩
    rw [NameIterator.names_eq] at gives
    split at gives
    · exact Option.some.inj gives
    · cases gives
  · intro spells
    refine ⟨length_bitNames net accepted, ((net.nameIterator declaration).rest declaration).length, ?_⟩
    rw [NameIterator.names_eq,if_pos le_rfl,spells]

/-- The iterator of an accepted net gives its bits exactly where no later net of a concatenation is without bits, and
decimal constants have no more digits than the greatest supported one. -/
theorem expands_iff (declaration : Declarations) (accepted : net.Accepted) : net.Expands declaration ↔ net.Fit := by
  rw [expands_iff_spelled declaration accepted]
  exact spelled_eq net accepted

def nibble : VerilogNet := .constant ['4', quote, 'h', 'A']

/-- A bus, whose bits count down, and a constant after it. -/
def busAndNibble : VerilogNet := .concat [.scalar ['b'], nibble]

def declaredBus : Declarations := fun name => if name = ['b'] then some (.bus 1 0) else none

theorem validConstant_nibble : ValidConstant ['4', quote, 'h', 'A'] :=
  ⟨by decide +kernel, 16, ['A'], by decide +kernel, List.forall_mem_singleton.2 (by decide), by decide⟩

theorem fitConstant_nibble : FitConstant ['4', quote, 'h', 'A'] := by
  intro digits number
  have base : constantNumber ['4', quote, 'h', 'A'] = some (16, ['A']) := by decide +kernel
  rw [base] at number
  cases number

theorem expands_busAndNibble : busAndNibble.Accepted ∧ busAndNibble.Expands declaredBus := by
  have accepted : busAndNibble.Accepted := by
    simp only [busAndNibble,nibble,Accepted,AllAccepted]
    exact ⟨trivial, validConstant_nibble, trivial⟩
  refine ⟨accepted, (expands_iff declaredBus accepted).2 ?_⟩
  simp only [busAndNibble,nibble,Fit,LaterFit,Blank]
  exact ⟨trivial, ⟨fitConstant_nibble, by decide +kernel⟩, trivial⟩

def longOne : List Char := ['4', quote, 'd'] ++ List.replicate 20 '0' ++ ['1']

theorem digits_longOne : ∀ ch ∈ withoutUnderscores (List.replicate 20 '0' ++ ['1']), charValue 10 ch < 10 := by
  intro ch mem
  rcases List.mem_append.1 (List.mem_of_mem_filter mem) with zero | one
  · rw [List.eq_of_mem_replicate zero]
    decide
  · rw [List.mem_singleton.1 one]
    decide

/-- The warning is of a constant greater than the greatest supported one. -/
theorem longOne_zero : (constant longOne).Accepted ∧ ¬(constant longOne).Expands declaredBus := by
  have accepted : (constant longOne).Accepted := by
    rw [Accepted]
    exact ⟨by decide +kernel, 10, List.replicate 20 '0' ++ ['1'], by decide +kernel, digits_longOne, by decide +kernel⟩
  refine ⟨accepted, ?_⟩
  rw [expands_iff_spelled declaredBus accepted,spelled,bitNames]
  decide +kernel

end VerilogNet

end GTPower.NetExpressions
