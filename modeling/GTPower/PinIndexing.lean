import GTPower.WhenState
import Mathlib.Data.List.AList

/-! The pins of an instance by index: inputs first, then outputs, with the indices kept by the names of their ports. The
states of a condition are kept in a vector of the size of that map, and reading or writing outside of a vector
throws. -/
namespace GTPower.PinIndexing

/-- The pins of an instance in the order of their iterator. A pin may have no liberty port; no two have the same one. -/
structure LeafInstance (π κ : Type) where
  pins : List π
  libertyPort : π → Option (κ × PortDirection)
  distinct : (pins.filterMap fun pin => (libertyPort pin).map Prod.fst).Nodup

section Pins
variable {π κ : Type} [DecidableEq κ] (inst : LeafInstance π κ)

structure PinInformation (π : Type) where
  pins : List π
  nPin : Nat
  nInputPin : Nat
  nOutputPin : Nat

def directed (passes : PortDirection → Bool) : List π :=
  inst.pins.filter fun pin => ((inst.libertyPort pin).map fun port => passes port.2).getD false

/-- The input pins, and then the output pins. -/
def getPinInformation : PinInformation π where
  pins := directed inst PortDirection.isAnyInput ++ directed inst PortDirection.isAnyOutput
  nPin := (directed inst PortDirection.isAnyInput).length + (directed inst PortDirection.isAnyOutput).length
  nInputPin := (directed inst PortDirection.isAnyInput).length
  nOutputPin := (directed inst PortDirection.isAnyOutput).length

abbrev PortNameToIdxMap (κ : Type) := AList fun _ : κ => Nat

/-- A pin with its index is put under the name of its port. -/
def addPin (map : PortNameToIdxMap κ) (entry : π × Nat) : PortNameToIdxMap κ :=
  match inst.libertyPort entry.1 with
  | none => map
  | some port => map.insert port.1 entry.2

def portNameToIdxMap (pins : List π) : PortNameToIdxMap κ := pins.zipIdx.foldl (addPin inst) ∅

end Pins

section When
variable {κ : Type} [DecidableEq κ] (map : PortNameToIdxMap κ)

/-- The ways a condition ends without a value: the program exits with an error, or a vector throws. -/
inductive WhenError where
  | exit
  | outOfRange

def whenPinIndex (name : κ) : Except WhenError Nat :=
  match map.lookup name with
  | none => .error .exit
  | some pinIdx => .ok pinIdx

def readAt (states : List Int) (idx : Nat) : Except WhenError Int :=
  match states[idx]? with
  | none => .error .outOfRange
  | some state => .ok state

def collectWhenPinStates : FuncExpr κ → Bool → List Int → Except WhenError (Bool × List Int)
  | .port name, negated, whenPinStates => do
    let pinIdx ← whenPinIndex map name
    let previousState ← readAt whenPinStates pinIdx
    let requiredState : Int := if negated then 0 else 1
    if previousState ≠ invalidVcdEventVal ∧ previousState ≠ requiredState then .ok (false, whenPinStates)
    else .ok (true, whenPinStates.set pinIdx requiredState)
  | .not left, negated, whenPinStates => collectWhenPinStates left (!negated) whenPinStates
  | .one, negated, whenPinStates => .ok (!negated, whenPinStates)
  | .zero, negated, whenPinStates => .ok (negated, whenPinStates)
  | .and left right, false, whenPinStates => do
    let (leftOk, whenPinStates) ← collectWhenPinStates left false whenPinStates
    let (rightOk, whenPinStates) ← collectWhenPinStates right false whenPinStates
    .ok (leftOk && rightOk, whenPinStates)
  | .or left right, true, whenPinStates => do
    let (leftOk, whenPinStates) ← collectWhenPinStates left true whenPinStates
    let (rightOk, whenPinStates) ← collectWhenPinStates right true whenPinStates
    .ok (leftOk && rightOk, whenPinStates)
  | .and _ _, true, _ => .error .exit
  | .or _ _, false, _ => .error .exit
  | .xor _ _, _, _ => .error .exit

/-- The vector has an entry for every name of the map. -/
def getWhenPinStates (when : Option (FuncExpr κ)) : Except WhenError (Bool × List Int) :=
  let whenPinStates := List.replicate map.keys.length invalidVcdEventVal
  match when with
  | none => .ok (true, whenPinStates)
  | some expr => collectWhenPinStates map expr false whenPinStates

def evalWhen (pinStates : List Int) : FuncExpr κ → Except WhenError Bool
  | .port name => do
    let pinIdx ← whenPinIndex map name
    let state ← readAt pinStates pinIdx
    .ok (state == 1)
  | .not left => do
    let value ← evalWhen pinStates left
    .ok !value
  | .and left right => do
    let value ← evalWhen pinStates left
    if value then evalWhen pinStates right else .ok false
  | .or left right => do
    let value ← evalWhen pinStates left
    if value then .ok true else evalWhen pinStates right
  | .xor left right => do
    let leftVal ← evalWhen pinStates left
    let rightVal ← evalWhen pinStates right
    .ok (leftVal != rightVal)
  | .one => .ok true
  | .zero => .ok false

end When

section Consistent
variable {π κ : Type} [DecidableEq κ] (inst : LeafInstance π κ)

/-- The map of an instance as the power analysis builds it. -/
def pinMap : PortNameToIdxMap κ := portNameToIdxMap inst (getPinInformation inst).pins

/-- No condition reads or writes outside of its vector, and the index of a port is that of a pin of the port. -/
structure PinsIndexed : Prop where
  collected : ∀ when, getWhenPinStates (pinMap inst) when ≠ .error .outOfRange
  evaluated : ∀ pinStates : List Int, pinStates.length = (getPinInformation inst).nPin →
    ∀ expr, evalWhen (pinMap inst) pinStates expr ≠ .error .outOfRange
  own : ∀ name pinIdx, (pinMap inst).lookup name = some pinIdx →
    ∃ pin, (getPinInformation inst).pins[pinIdx]? = some pin ∧ (inst.libertyPort pin).map Prod.fst = some name

end Consistent

section Safety
variable {κ : Type} [DecidableEq κ] {map : PortNameToIdxMap κ}

/-- A result that no vector threw on the way to, with what holds of its value. -/
def Safe (result : Except WhenError α) (post : α → Prop) : Prop :=
  match result with
  | .error .outOfRange => False
  | .error .exit => True
  | .ok value => post value

theorem Safe.bind (safe : Safe result post) (next : ∀ value, post value → Safe (f value) post') :
    Safe (result >>= f) post' := by
  cases result with
  | error failure =>
    cases failure with
    | exit => trivial
    | outOfRange => exact False.elim safe
  | ok value => exact next value safe

theorem Safe.ne (safe : Safe result post) : result ≠ .error .outOfRange := by
  rintro rfl
  exact safe

theorem safe_whenPinIndex (inside : ∀ name pinIdx, map.lookup name = some pinIdx → pinIdx < size) (name : κ) :
    Safe (whenPinIndex map name) (· < size) := by
  unfold whenPinIndex
  cases found : map.lookup name with
  | none => trivial
  | some pinIdx => exact inside name pinIdx found

theorem safe_readAt (states : List Int) (inside : idx < states.length) : Safe (readAt states idx) fun _ => True := by
  rw [readAt,List.getElem?_eq_getElem inside]
  trivial

/-- With all indices inside of the vector, no access leaves it, and the vector keeps its size. -/
theorem safe_collect (expr : FuncExpr κ) (negated : Bool) (states : List Int)
    (inside : ∀ name pinIdx, map.lookup name = some pinIdx → pinIdx < states.length) :
    Safe (collectWhenPinStates map expr negated states) fun found => found.2.length = states.length := by
  have both : ∀ (left right : FuncExpr κ) (negated : Bool) (states : List Int),
      (∀ name pinIdx, map.lookup name = some pinIdx → pinIdx < states.length) →
      (∀ states : List Int, (∀ name pinIdx, map.lookup name = some pinIdx → pinIdx < states.length) →
        Safe (collectWhenPinStates map left negated states) fun found => found.2.length = states.length) →
      (∀ states : List Int, (∀ name pinIdx, map.lookup name = some pinIdx → pinIdx < states.length) →
        Safe (collectWhenPinStates map right negated states) fun found => found.2.length = states.length) →
      Safe (do
        let (leftOk, states) ← collectWhenPinStates map left negated states
        let (rightOk, states) ← collectWhenPinStates map right negated states
        .ok (leftOk && rightOk, states)) fun found : Bool × List Int => found.2.length = states.length := by
    intro left right negated states inside ihl ihr
    refine (ihl states inside).bind fun first size => ?_
    refine (ihr first.2 (by rw [size]; exact inside)).bind fun second size' => ?_
    exact size'.trans size
  induction expr generalizing negated states with
  | port name =>
    refine (safe_whenPinIndex inside name).bind fun pinIdx low => ?_
    refine (safe_readAt states low).bind fun previousState _ => ?_
    dsimp only
    by_cases conflict : previousState ≠ invalidVcdEventVal ∧ previousState ≠ if negated then 0 else 1
    · rw [if_pos conflict]
      rfl
    · rw [if_neg conflict]
      exact List.length_set
  | not left ih => exact ih (!negated) states inside
  | one => rfl
  | zero => rfl
  | and left right ihl ihr =>
    cases negated with
    | false => exact both left right false states inside (fun states => ihl false states) fun states => ihr false states
    | true => trivial
  | or left right ihl ihr =>
    cases negated with
    | false => trivial
    | true => exact both left right true states inside (fun states => ihl true states) fun states => ihr true states
  | xor left right ihl ihr =>
    unfold collectWhenPinStates
    trivial

theorem safe_evalWhen (pinStates : List Int)
    (inside : ∀ name pinIdx, map.lookup name = some pinIdx → pinIdx < pinStates.length) (expr : FuncExpr κ) :
    Safe (evalWhen map pinStates expr) fun _ => True := by
  induction expr with
  | port name =>
    refine (safe_whenPinIndex inside name).bind fun pinIdx low => ?_
    exact (safe_readAt pinStates low).bind fun state _ => trivial
  | not left ih => exact ih.bind fun value _ => trivial
  | and left right ihl ihr =>
    refine ihl.bind fun value _ => ?_
    cases value with
    | false => trivial
    | true => exact ihr
  | or left right ihl ihr =>
    refine ihl.bind fun value _ => ?_
    cases value with
    | false => exact ihr
    | true => trivial
  | xor left right ihl ihr => exact ihl.bind fun leftVal _ => ihr.bind fun rightVal _ => trivial
  | one => trivial
  | zero => trivial

end Safety

section Map
variable {π κ : Type} [DecidableEq κ] {inst : LeafInstance π κ}

def portNames (inst : LeafInstance π κ) (pins : List π) : List κ :=
  pins.filterMap fun pin => (inst.libertyPort pin).map Prod.fst

theorem portNameToIdxMap_concat (pins : List π) (pin : π) :
    portNameToIdxMap inst (pins ++ [pin]) = addPin inst (portNameToIdxMap inst pins) (pin, pins.length) := by
  simp [portNameToIdxMap,List.zipIdx_append]

/-- The index of a name is that of a pin of the port. -/
theorem lookup_own (pins : List π) (name : κ) (pinIdx : Nat)
    (found : (portNameToIdxMap inst pins).lookup name = some pinIdx) :
    ∃ pin, pins[pinIdx]? = some pin ∧ (inst.libertyPort pin).map Prod.fst = some name := by
  induction pins using List.reverseRecOn with
  | nil => cases found
  | append_singleton pins last ih =>
    rw [portNameToIdxMap_concat,addPin] at found
    have earlier : (portNameToIdxMap inst pins).lookup name = some pinIdx →
        ∃ pin, (pins ++ [last])[pinIdx]? = some pin ∧ (inst.libertyPort pin).map Prod.fst = some name := by
      intro found
      obtain ⟨pin, here, same⟩ := ih found
      exact ⟨pin, by rw [List.getElem?_append_left (List.getElem?_eq_some_iff.mp here).1,here], same⟩
    cases port : inst.libertyPort last with
    | none =>
      rw [port] at found
      exact earlier found
    | some own =>
      rw [port] at found
      by_cases same : name = own.1
      · subst same
        rw [AList.lookup_insert] at found
        obtain rfl := Option.some.inj found
        exact ⟨last, by simp, by rw [port]; rfl⟩
      · rw [AList.lookup_insert_ne same] at found
        exact earlier found

theorem mem_portNameToIdxMap (pins : List π) (name : κ) : name ∈ portNameToIdxMap inst pins ↔
    name ∈ portNames inst pins := by
  induction pins using List.reverseRecOn with
  | nil => exact ⟨fun mem => (by cases mem), fun mem => by cases mem⟩
  | append_singleton pins last ih =>
    rw [portNameToIdxMap_concat,addPin,portNames,List.filterMap_append,List.mem_append,← portNames,← ih]
    cases port : inst.libertyPort last with
    | none => simp [port]
    | some own =>
      rw [AList.mem_insert]
      simp [port,or_comm]

theorem length_portNameToIdxMap (pins : List π) :
    (portNameToIdxMap inst pins).keys.length = (portNames inst pins).dedup.length := by
  apply List.Perm.length_eq
  rw [List.perm_ext_iff_of_nodup (AList.keys_nodup _) (List.nodup_dedup _)]
  intro name
  rw [List.mem_dedup,← mem_portNameToIdxMap,AList.mem_keys]

omit [DecidableEq κ] in
theorem mem_directed {passes : PortDirection → Bool} (pin : π) : pin ∈ directed inst passes ↔
    pin ∈ inst.pins ∧ ∃ name direction, inst.libertyPort pin = some (name, direction) ∧ passes direction := by
  rw [directed,List.mem_filter]
  cases inst.libertyPort pin with
  | none => simp
  | some port => simp [Prod.ext_iff]

omit [DecidableEq κ] in
theorem pin_unique (mem : pin ∈ inst.pins) (mem' : pin' ∈ inst.pins)
    (port : (inst.libertyPort pin).map Prod.fst = some name)
    (port' : (inst.libertyPort pin').map Prod.fst = some name) : pin = pin' := by
  by_contra differ
  have apart := List.pairwise_filterMap.mp inst.distinct
  have symmetric : Std.Symm fun pin pin' : π => ∀ name, (inst.libertyPort pin).map Prod.fst = some name →
      ∀ name', (inst.libertyPort pin').map Prod.fst = some name' → name ≠ name' :=
    ⟨fun _ _ far name here name' there same => far name' there name here same.symm⟩
  exact apart.forall mem mem' differ name port name port' rfl

omit [DecidableEq κ] in
theorem portNames_length (pins : List π) (ported : ∀ pin ∈ pins, (inst.libertyPort pin).isSome) :
    (portNames inst pins).length = pins.length := by
  induction pins with
  | nil => rfl
  | cons pin rest ih =>
    obtain ⟨port, found⟩ := Option.isSome_iff_exists.mp (ported pin (List.mem_cons_self ..))
    have later := ih fun other mem => ported other (List.mem_cons_of_mem _ mem)
    rw [portNames,List.filterMap_cons_some (by rw [found]; rfl),List.length_cons,← portNames,later,List.length_cons]

omit [DecidableEq κ] in
theorem listed_ported (pin : π) (mem : pin ∈ (getPinInformation inst).pins) : (inst.libertyPort pin).isSome := by
  rcases List.mem_append.mp mem with input | output
  · obtain ⟨-, name, direction, port, -⟩ := (mem_directed pin).mp input
    rw [port]
    rfl
  · obtain ⟨-, name, direction, port, -⟩ := (mem_directed pin).mp output
    rw [port]
    rfl

theorem bidirect_of_both {direction : PortDirection} (input : direction.isAnyInput) (output : direction.isAnyOutput) :
    direction = .bidirect := by
  revert input output
  cases direction <;> decide

omit [DecidableEq κ] in
/-- The names of the listed pins are distinct exactly if no pin is listed among the inputs and among the outputs. -/
theorem portNames_nodup_iff : (portNames inst (getPinInformation inst).pins).Nodup ↔
    ∀ pin ∈ inst.pins, ∀ name, inst.libertyPort pin ≠ some (name, .bidirect) := by
  rw [getPinInformation,portNames,List.filterMap_append,List.nodup_append']
  constructor
  · rintro ⟨-, -, apart⟩ pin mem name port
    have input : name ∈ portNames inst (directed inst PortDirection.isAnyInput) :=
      List.mem_filterMap.mpr ⟨pin, (mem_directed pin).mpr ⟨mem, name, .bidirect, port, rfl⟩, by rw [port]; rfl⟩
    have output : name ∈ portNames inst (directed inst PortDirection.isAnyOutput) :=
      List.mem_filterMap.mpr ⟨pin, (mem_directed pin).mpr ⟨mem, name, .bidirect, port, rfl⟩, by rw [port]; rfl⟩
    exact List.disjoint_left.mp apart input output
  · intro none
    refine ⟨?_, ?_, ?_⟩
    · exact inst.distinct.sublist (List.filter_sublist.filterMap _)
    · exact inst.distinct.sublist (List.filter_sublist.filterMap _)
    · rw [List.disjoint_left]
      intro name here there
      obtain ⟨pin, input, port⟩ := List.mem_filterMap.mp here
      obtain ⟨pin', output, port'⟩ := List.mem_filterMap.mp there
      obtain ⟨mem, _, direction, found, passes⟩ := (mem_directed pin).mp input
      obtain ⟨mem', _, direction', found', passes'⟩ := (mem_directed pin').mp output
      obtain rfl := pin_unique mem mem' port port'
      obtain ⟨rfl, rfl⟩ := Prod.mk.inj (Option.some.inj (found.symm.trans found'))
      exact none pin mem _ (by rw [found,bidirect_of_both passes passes'])

/-- With distinct names the map is as large as the list of pins, else smaller. -/
theorem size_pinMap (inst : LeafInstance π κ) : (pinMap inst).keys.length ≤ (getPinInformation inst).pins.length ∧
    ((pinMap inst).keys.length = (getPinInformation inst).pins.length ↔
    (portNames inst (getPinInformation inst).pins).Nodup) := by
  have ported : ∀ pin ∈ (getPinInformation inst).pins, (inst.libertyPort pin).isSome := listed_ported
  have whole := portNames_length (getPinInformation inst).pins ported
  rw [pinMap,length_portNameToIdxMap,← whole]
  have sub := List.dedup_sublist (portNames inst (getPinInformation inst).pins)
  refine ⟨sub.length_le, fun same => ?_, fun distinct => by rw [distinct.dedup]⟩
  rw [← sub.eq_of_length same]
  exact List.nodup_dedup _

end Map

/-- The indexing is consistent exactly for the instances without a pin of a bidirectional port. -/
theorem pinsIndexed_iff {π κ : Type} [DecidableEq κ] (inst : LeafInstance π κ) : PinsIndexed inst ↔
    ∀ pin ∈ inst.pins, ∀ name, inst.libertyPort pin ≠ some (name, .bidirect) := by
  obtain ⟨least, same⟩ := size_pinMap inst
  rw [← portNames_nodup_iff,← same]
  have own : ∀ name pinIdx, (pinMap inst).lookup name = some pinIdx →
    ∃ pin, (getPinInformation inst).pins[pinIdx]? = some pin ∧
      (inst.libertyPort pin).map Prod.fst = some name := lookup_own (getPinInformation inst).pins
  have inside : ∀ name pinIdx, (pinMap inst).lookup name = some pinIdx →
    pinIdx < (getPinInformation inst).pins.length := by
    intro name pinIdx found
    obtain ⟨pin, here, -⟩ := own name pinIdx found
    exact (List.getElem?_eq_some_iff.mp here).1
  constructor
  · intro indexed
    by_contra differ
    have smaller : (pinMap inst).keys.length < (getPinInformation inst).pins.length := by omega
    obtain ⟨front, last, whole⟩ := (List.eq_nil_or_concat (getPinInformation inst).pins).resolve_left
      (List.ne_nil_of_length_pos (Nat.lt_of_le_of_lt (Nat.zero_le _) smaller))
    rw [List.concat_eq_append] at whole
    obtain ⟨port, named⟩ := Option.isSome_iff_exists.mp (listed_ported last (by rw [whole]; simp))
    have final : (pinMap inst).lookup port.1 = some front.length := by
      rw [pinMap,whole,portNameToIdxMap_concat,addPin,named]
      exact AList.lookup_insert _
    rw [whole,List.length_append,List.length_singleton] at smaller
    refine indexed.collected (some (.port port.1)) ?_
    have outside : readAt (List.replicate (pinMap inst).keys.length invalidVcdEventVal) front.length =
      .error .outOfRange := by
      rw [readAt,List.getElem?_eq_none (by rw [List.length_replicate]; omega)]
    rw [getWhenPinStates]
    rw [collectWhenPinStates,whenPinIndex,final]
    change (readAt _ front.length >>= _) = _
    rw [outside]
    rfl
  · intro equal
    refine ⟨fun when => ?_, fun pinStates size expr => ?_, own⟩
    · cases when with
      | none => exact fun failure => by cases failure
      | some expr =>
        refine (safe_collect expr false _ fun name pinIdx found => ?_).ne
        rw [List.length_replicate,equal]
        exact inside name pinIdx found
    · refine (safe_evalWhen pinStates (fun name pinIdx found => ?_) expr).ne
      rw [size]
      exact Nat.lt_of_lt_of_eq (inside name pinIdx found) List.length_append

/-- An input and a bidirectional pad: three pins are listed, and the map has two names. -/
def padInstance : LeafInstance Char Char where
  pins := ['a', 'p']
  libertyPort pin := some (pin, if pin = 'p' then .bidirect else .input)
  distinct := by decide

theorem padInstance_outOfRange : ¬PinsIndexed padInstance := by
  intro indexed
  refine indexed.collected (some (.port 'p')) ?_
  have found : (pinMap padInstance).lookup 'p' = some 2 := by decide +kernel
  have size : (pinMap padInstance).keys.length = 2 := by decide +kernel
  simp only [getWhenPinStates,collectWhenPinStates,whenPinIndex,found,size]
  rfl

end GTPower.PinIndexing
