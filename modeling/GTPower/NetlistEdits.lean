import GTPower.NetLists

/-! The references between the objects of a netlist, and what each edit does to them and to the lists when the lists are
in order before it. -/
namespace GTPower.ConcreteNetwork

open Linked

section Data

variable (st : ConcreteNetwork)

def pinTerm (pin : ℕ) : Option ℕ := (st.pinData pin).bind (·.term)

def pinInst (pin : ℕ) : Option ℕ := (st.pinData pin).map (·.inst)

def pinPort (pin : ℕ) : Option ConcretePort := (st.pinData pin).map (·.port)

def pinIndex (pin : ℕ) : Option ℕ := (st.pinPort pin).bind (·.pinIndex)

def termPin (term : ℕ) : Option ℕ := (st.termData term).map (·.pin)

/-- The references between the objects, apart from the lists: `slot` says where an instance finds its pins. -/
structure Refs (st : ConcreteNetwork) : Prop where
  refers : ∀ t p, st.termPin t = some p ↔ st.pinTerm p = some t
  room : ∀ p i, st.pinInst p = some i → ∃ cinst k, st.instances i = some cinst ∧ st.pinIndex p = some k ∧
    k < cinst.pins.length
  slot : ∀ i cinst k p, st.instances i = some cinst → cinst.pins[k]? = some (some p) → st.pinInst p = some i ∧
    st.pinIndex p = some k
  fresh : ∀ a, st.objectId ≤ a → st.pinData a = none ∧ st.termData a = none ∧ st.netLive a = false ∧
    st.instances a = none

def Stored (st : ConcreteNetwork) : Prop :=
  ∀ p i, st.pinInst p = some i →
    ∃ cinst k, st.instances i = some cinst ∧ st.pinIndex p = some k ∧ cinst.pins[k]? = some (some p)

end Data

variable {st st' : ConcreteNetwork} {net pin term inst : ℕ} {port : ConcretePort}

/-- The data of the two states agree but for the nets of pins and of terminals. -/
structure SameRefs (st st' : ConcreteNetwork) : Prop where
  pinTerm : st'.pinTerm = st.pinTerm
  pinInst : st'.pinInst = st.pinInst
  pinPort : st'.pinPort = st.pinPort
  termPin : st'.termPin = st.termPin
  instances : st'.instances = st.instances
  objectId : st'.objectId = st.objectId

theorem pinData_eq_none : st.pinData pin = none ↔ st.pinInst pin = none := by simp [pinInst]

theorem termData_eq_none : st.termData term = none ↔ st.termPin term = none := by simp [termPin]

theorem SameRefs.pinIndex (same : SameRefs st st') : st'.pinIndex = st.pinIndex := by
  funext p
  simp [ConcreteNetwork.pinIndex,same.pinPort]

theorem Refs.congr (refs : Refs st) (same : SameRefs st st') (live : ∀ n, st'.netLive n → st.netLive n) : Refs st' where
  refers t p := by rw [same.termPin,same.pinTerm]; exact refs.refers t p
  room p i here := by rw [same.instances,same.pinIndex]; exact refs.room p i (same.pinInst ▸ here)
  slot i cinst k p here slot := by
    rw [same.pinInst,same.pinIndex]
    exact refs.slot i cinst k p (same.instances ▸ here) slot
  fresh a beyond := by
    rw [same.objectId] at beyond
    obtain ⟨noPin, noTerm, noNet, noInst⟩ := refs.fresh a beyond
    refine ⟨?_, ?_, ?_, by rw [same.instances]; exact noInst⟩
    · rw [pinData_eq_none,same.pinInst,← pinData_eq_none]; exact noPin
    · rw [termData_eq_none,same.termPin,← termData_eq_none]; exact noTerm
    · by_contra isLive
      simp [live a (by simpa using isLive)] at noNet

theorem Stored.congr (stored : Stored st) (same : SameRefs st st') : Stored st' := by
  intro p i here
  rw [same.pinInst] at here
  rw [same.instances,same.pinIndex]
  exact stored p i here

theorem SameRefs.trans {st'' : ConcreteNetwork} (first : SameRefs st st') (second : SameRefs st' st'') :
    SameRefs st st'' where
  pinTerm := second.pinTerm.trans first.pinTerm
  pinInst := second.pinInst.trans first.pinInst
  pinPort := second.pinPort.trans first.pinPort
  termPin := second.termPin.trans first.termPin
  instances := second.instances.trans first.instances
  objectId := second.objectId.trans first.objectId

theorem PinFrame.sameRefs (frame : PinFrame st st') (data : ∀ p, ∃ change : ConcretePin → Option ℕ,
    st'.pinData p = (st.pinData p).map fun c => { c with net := change c }) : SameRefs st st' where
  pinTerm := by
    funext p
    obtain ⟨change, eq⟩ := data p
    cases here : st.pinData p <;> simp [pinTerm,eq,here]
  pinInst := by
    funext p
    obtain ⟨change, eq⟩ := data p
    cases here : st.pinData p <;> simp [pinInst,eq,here]
  pinPort := by
    funext p
    obtain ⟨change, eq⟩ := data p
    cases here : st.pinData p <;> simp [pinPort,eq,here]
  termPin := by funext t; simp [termPin,termData,frame.terms]
  instances := frame.instances
  objectId := frame.objectId

theorem TermFrame.sameRefs (frame : TermFrame st st') (data : ∀ t, ∃ change : ConcreteTerm → Option ℕ,
    st'.termData t = (st.termData t).map fun c => { c with net := change c }) : SameRefs st st' where
  pinTerm := by funext p; simp [pinTerm,pinData,frame.pins]
  pinInst := by funext p; simp [pinInst,pinData,frame.pins]
  pinPort := by funext p; simp [pinPort,pinData,frame.pins]
  termPin := by
    funext t
    obtain ⟨change, eq⟩ := data t
    cases here : st.termData t <;> simp [termPin,eq,here]
  instances := frame.instances
  objectId := frame.objectId

theorem PinsMoved.sameRefs (moved : PinsMoved st st') : SameRefs st st' :=
  moved.toPinFrame.sameRefs fun p => ⟨(·.net), by rw [moved.data]; cases st.pinData p <;> rfl⟩

theorem TermsMoved.sameRefs (moved : TermsMoved st st') : SameRefs st st' :=
  moved.toTermFrame.sameRefs fun t => ⟨(·.net), by rw [moved.data]; cases st.termData t <;> rfl⟩

structure Inv (st : ConcreteNetwork) : Prop where
  threaded : ∃ pinList termList, Threaded st st.pinOwner st.termOwner pinList termList
  refs : Refs st

section Instance

variable {cinst cinst' : ConcreteInstance} {index : ℕ}

theorem ConcreteInstance.addPin_spec (cinst : ConcreteInstance) (pin : ℕ) (isBit : port.pinIndex = some index) :
    ∃ cinst', cinst.addPin port (some pin) = some cinst' ∧ cinst'.cell = cinst.cell ∧
      (index < cinst'.pins.length ∧ cinst.pins.length ≤ cinst'.pins.length) ∧
      ∀ k q, cinst'.pins[k]? = some (some q) ↔ (k = index ∧ q = pin) ∨
        (k ≠ index ∧ cinst.pins[k]? = some (some q)) := by
  let padded := if index < cinst.pins.length then cinst.pins else cinst.pins ++
    List.replicate (index + 1 - cinst.pins.length) none
  have long : index < padded.length := by
    simp only [padded]
    split
    · assumption
    · simp
      omega
  have old : ∀ k q : ℕ, padded[k]? = some (some q) ↔ cinst.pins[k]? = some (some q) := by
    intro k q
    simp only [padded]
    split
    · rfl
    · rw [List.getElem?_append]
      split
      · rfl
      · next short => simp [List.getElem?_replicate,List.getElem?_eq_none (Nat.le_of_not_lt short)]
  have grown : cinst.pins.length ≤ padded.length := by
    simp only [padded]
    split <;> simp
  refine ⟨{ cinst with pins := padded.set index (some pin) }, by
    simp [GTPower.ConcreteInstance.addPin,isBit,padded], rfl,
    by simp [long,grown], fun k q => ?_⟩
  by_cases eq : k = index
  · subst eq
    simp only [List.getElem?_set_self long,Option.some.injEq,true_and,ne_eq,not_true_eq_false,false_and,or_false]
    exact eq_comm
  · simp only [List.getElem?_set_ne (Ne.symm eq),old,eq,false_and,ne_eq,not_false_eq_true,true_and,false_or]

theorem ConcreteInstance.deletePin_spec (isBit : port.pinIndex = some index) (inside : index < cinst.pins.length) :
    ∃ cinst', cinst.deletePin port = some cinst' ∧ cinst'.cell = cinst.cell ∧ cinst'.pins.length = cinst.pins.length ∧
      ∀ k q, cinst'.pins[k]? = some (some q) ↔ k ≠ index ∧ cinst.pins[k]? = some (some q) := by
  refine ⟨{ cinst with pins := cinst.pins.set index none }, by
    simp [GTPower.ConcreteInstance.deletePin,isBit,inside], rfl,
    by simp, fun k q => ?_⟩
  by_cases eq : k = index
  · subst eq
    simp [inside]
  · simp [List.getElem?_set_ne (Ne.symm eq),eq]

theorem ConcreteInstance.findPin_eq_some (isBit : port.pinIndex = some index) :
    cinst.findPin port = some pin ↔ cinst.pins[index]? = some (some pin) := by
  simp only [GTPower.ConcreteInstance.findPin,isBit,Option.bind_eq_bind,Option.bind_some]
  cases here : cinst.pins[index]? <;> simp

end Instance

section NewPin

variable {index : ℕ} {onNet : Option ℕ}

structure PinMade (st st' : ConcreteNetwork) (inst : ℕ) (port : ConcretePort) (onNet : Option ℕ) : Prop where
  data : ∀ p, st'.pinData p = if p = st.objectId then some ⟨inst, port, onNet, none, 0, none, none⟩ else st.pinData p
  pins : ∀ p, p ≠ st.objectId → st'.pins p = st.pins p
  terms : st'.terms = st.terms
  nets : st'.nets = st.nets
  cells : ∀ i, (st'.instances i).map (·.cell) = (st.instances i).map (·.cell)
  top : st'.topInstance = st.topInstance
  objectId : st'.objectId = st.objectId + 1
  drvrs : st'.netDrvrPinMap = st.netDrvrPinMap

theorem Refs.noPin (refs : Refs st) {a : ℕ} (beyond : st.objectId ≤ a) : st.pinTerm a = none ∧ st.pinOwner a = none ∧
    st.pinInst a = none := by
  obtain ⟨noPin, _⟩ := refs.fresh a beyond
  simp [pinTerm,pinOwner,pinInst,noPin]

/-- The new pin is in the slot of its port, and the other slots are as before. -/
structure PinStored (st st' : ConcreteNetwork) (inst index : ℕ) (cinst cinst' : ConcreteInstance) : Prop where
  found : st.instances inst = some cinst
  inside : index < cinst'.pins.length
  grown : cinst.pins.length ≤ cinst'.pins.length
  slots : ∀ k q, cinst'.pins[k]? = some (some q) ↔ k = index ∧ q = st.objectId ∨ k ≠ index ∧
    cinst.pins[k]? = some (some q)
  instances : ∀ i, st'.instances i = if i = inst then some cinst' else st.instances i
  pinInst : ∀ p, st'.pinInst p = if p = st.objectId then some inst else st.pinInst p
  pinIndex : ∀ p, st'.pinIndex p = if p = st.objectId then some index else st.pinIndex p

variable {cinst cinst' : ConcreteInstance}

theorem PinStored.room (put : PinStored st st' inst index cinst cinst') (refs : Refs st) {p i : ℕ}
    (here : st'.pinInst p = some i) :
    ∃ c k, st'.instances i = some c ∧ st'.pinIndex p = some k ∧ k < c.pins.length := by
  rw [put.pinInst] at here
  by_cases new : p = st.objectId
  · simp only [new,if_true,Option.some.injEq] at here
    subst here
    exact ⟨cinst', index, by simp [put.instances], by simp [put.pinIndex,new], put.inside⟩
  · simp only [new,if_false] at here
    obtain ⟨c, k, hc, place, short⟩ := refs.room p i here
    by_cases eq : i = inst
    · subst eq
      obtain rfl := Option.some.inj (put.found.symm.trans hc)
      exact ⟨cinst', k, by simp [put.instances], by simp [put.pinIndex,new,place], lt_of_lt_of_le short put.grown⟩
    · exact ⟨c, k, by simp [put.instances,eq,hc], by simp [put.pinIndex,new,place], short⟩

theorem PinStored.slot (put : PinStored st st' inst index cinst cinst') (refs : Refs st) {i k p : ℕ}
    {c : ConcreteInstance}
    (here : st'.instances i = some c) (slot : c.pins[k]? = some (some p)) : st'.pinInst p = some i ∧
    st'.pinIndex p = some k := by
  obtain ⟨_, _, noInst⟩ := refs.noPin (le_refl st.objectId)
  rw [put.instances] at here
  rw [put.pinInst,put.pinIndex]
  by_cases eq : i = inst
  · simp only [eq,if_true,Option.some.injEq] at here
    subst here eq
    rcases (put.slots k p).1 slot with ⟨rfl, rfl⟩ | ⟨other, slot⟩
    · simp
    · have old := refs.slot i cinst k p put.found slot
      have ne : p ≠ st.objectId := fun eq => by simp [eq,noInst] at old
      simpa [ne] using old
  · simp only [eq,if_false] at here
    have old := refs.slot i c k p here slot
    have ne : p ≠ st.objectId := fun eq => by simp [eq,noInst] at old
    simpa [ne] using old

theorem PinStored.stored (put : PinStored st st' inst index cinst cinst') (stored : Stored st)
    (empty : ∀ q, cinst.pins[index]? ≠ some (some q)) : Stored st' := by
  intro p i here
  rw [put.pinInst] at here
  by_cases new : p = st.objectId
  · simp only [new,if_true,Option.some.injEq] at here
    subst here
    exact ⟨cinst', index, by simp [put.instances], by simp [put.pinIndex,new], (put.slots index p).2 (.inl ⟨rfl, new⟩)⟩
  · simp only [new,if_false] at here
    obtain ⟨c, k, hc, place, slot⟩ := stored p i here
    by_cases eq : i = inst
    · subst eq
      obtain rfl := Option.some.inj (put.found.symm.trans hc)
      have other : k ≠ index := by
        rintro rfl
        exact empty p slot
      exact ⟨cinst', k, by simp [put.instances], by simp [put.pinIndex,new,place],
        (put.slots k p).2 (.inr ⟨other, slot⟩)⟩
    · exact ⟨c, k, by simp [put.instances,eq,hc], by simp [put.pinIndex,new,place], slot⟩

theorem Inv.newPin (inv : Inv st) (onInst : (st.instances inst).isSome) (isBit : port.pinIndex = some index)
    (onNet : Option ℕ) :
    ∃ st', (st.newPin inst port onNet).1.instAddPin inst port st.objectId = some st' ∧ PinMade st st' inst port onNet ∧
      (∃ pinList termList, Threaded st' st.pinOwner st'.termOwner pinList termList) ∧ Refs st' ∧
      (Stored st → (∀ cinst, st.instances inst = some cinst → cinst.findPin port = none) → Stored st') := by
  obtain ⟨cinst, found⟩ := Option.isSome_iff_exists.1 onInst
  obtain ⟨cinst', added, cell, ⟨inside, grown⟩, slots⟩ := ConcreteInstance.addPin_spec cinst st.objectId isBit
  obtain ⟨pinList, termList, threaded⟩ := inv.threaded
  obtain ⟨noTerm, noOwner, _⟩ := inv.refs.noPin (le_refl st.objectId)
  have old : ∀ p n, st.pinOwner p = some n → p ≠ st.objectId := fun p n owned eq => by simp [eq,noOwner] at owned
  let st' : ConcreteNetwork :=
    { (st.newPin inst port onNet).1.setInstance inst cinst' with objectId := st.objectId + 1 }
  have data : ∀ p, st'.pinData p = if p = st.objectId then some ⟨inst, port, onNet, none, 0, none, none⟩
    else st.pinData p := fun p => by
    simp only [st',ConcreteNetwork.newPin,setInstance,pinData,setPin]
    by_cases eq : p = st.objectId <;> simp [eq,ConcretePin.unlinked]
  have pins : ∀ p, p ≠ st.objectId → st'.pins p = st.pins p :=
    fun p ne => by simp [st',ConcreteNetwork.newPin,setInstance,setPin,ne]
  have instances : ∀ i, st'.instances i = if i = inst then some cinst' else st.instances i := fun i => by
    simp [st',setInstance,ConcreteNetwork.newPin,setPin,Function.update_apply]
  have put : PinStored st st' inst index cinst cinst' := by
    refine ⟨found, inside, grown, slots, instances, fun p => ?_, fun p => ?_⟩
    · simp only [ConcreteNetwork.pinInst,data]
      split <;> rfl
    · simp only [ConcreteNetwork.pinIndex,pinPort,data]
      split <;> simp [isBit]
  refine ⟨st', ?_, ⟨data, pins, rfl, rfl, fun i => ?_, rfl, rfl, rfl⟩, ⟨pinList, termList, ?_⟩, ⟨fun t p => ?_,
    fun p i => put.room inv.refs, fun i c k p => put.slot inv.refs, fun a beyond => ?_⟩, fun stored empty =>
      put.stored stored fun q slot => ?_⟩
  · have unchanged : (st.newPin inst port onNet).1.instances inst = some cinst := found
    simp [instAddPin,unchanged,added]
    rfl
  · rw [instances]
    by_cases eq : i = inst <;> simp [eq,found,cell]
  · refine threaded.congr rfl rfl (fun _ live => live) (fun p n owned => ?_) fun t n owned =>
      ⟨rfl, (threaded.termLive t n owned).1⟩
    have same := pins p (old p n owned)
    simpa [pinNext,pinPrev,same] using (threaded.live p n owned).1
  · have terms : st'.termPin t = st.termPin t := rfl
    rw [terms,inv.refs.refers,pinTerm,pinTerm,data]
    by_cases eq : p = st.objectId
    · simpa [eq,pinTerm] using congrArg (· = some t) noTerm
    · simp [eq]
  · have beyond' : st.objectId + 1 ≤ a := beyond
    obtain ⟨noPin, noTerm, noNet, noInst⟩ := inv.refs.fresh a (by omega)
    have ne : a ≠ st.objectId := by omega
    have other : a ≠ inst := fun eq => by simp [eq,found] at noInst
    exact ⟨by simpa [data,ne] using noPin, noTerm, noNet, by simpa [instances,other] using noInst⟩
  · have there := (ConcreteInstance.findPin_eq_some isBit).2 slot
    simp [empty cinst found] at there

end NewPin

section Attach

variable {pinList termList : ℕ → List ℕ}

/-- The driver entries after a pin joins or leaves the list of a net. -/
def updatedDrvrs (st : ConcreteNetwork) (net : ℕ) (change : Finset ℕ → Finset ℕ) : ℕ → Option (Finset ℕ) :=
  if st.termHead net = none then Function.update st.netDrvrPinMap net ((st.netDrvrPinMap net).map change)
    else fun _ => none

def drvrsAfter (st : ConcreteNetwork) (driver : Bool) (net : ℕ) (change : Finset ℕ → Finset ℕ) : ℕ →
    Option (Finset ℕ) :=
  if driver then st.updatedDrvrs net change else st.netDrvrPinMap

theorem isDriver_congr (inst : st'.pinInst pin = st.pinInst pin) (port : st'.pinPort pin = st.pinPort pin)
    (cells : ∀ i, (st'.instances i).map (·.cell) = (st.instances i).map (·.cell))
    (top : st'.topInstance = st.topInstance) :
    st'.isDriver pin = st.isDriver pin := by
  simp only [isDriver,drives]
  cases here : st.pins pin with
  | none =>
    have gone : st'.pins pin = none := by simpa [pinInst,pinData,here] using inst
    simp [gone]
  | some cpin =>
    obtain ⟨cpin', here'⟩ : ∃ cpin', st'.pins pin = some cpin' := by
      rw [← Option.isSome_iff_exists]
      simpa [pinInst,pinData,here] using congrArg Option.isSome inst
    have inst : cpin'.inst = cpin.inst := by simpa [pinInst,pinData,here,here',ConcretePin.unlinked] using inst
    have port : cpin'.port = cpin.port := by simpa [pinPort,pinData,here,here',ConcretePin.unlinked] using port
    simp only [here',inst,port,top]
    have cell := cells cpin.inst
    cases there : st.instances cpin.inst with
    | none =>
      have gone : st'.instances cpin.inst = none := by simpa [there] using cell
      simp [gone]
    | some cinst =>
      obtain ⟨cinst', there', same⟩ : ∃ cinst', st'.instances cpin.inst = some cinst' ∧ cinst'.cell = cinst.cell := by
        simpa [there] using cell
      simp [there',same]

theorem SameRefs.isDriver (same : SameRefs st st') (top : st'.topInstance = st.topInstance) (p : ℕ) :
    st'.isDriver p = st.isDriver p :=
  isDriver_congr (congrFun same.pinInst p) (congrFun same.pinPort p) (fun i => by rw [same.instances]) top

theorem PinsMoved.isDriver (moved : PinsMoved st st') (p : ℕ) : st'.isDriver p = st.isDriver p :=
  moved.sameRefs.isDriver moved.top p

theorem updateDrvrs_spec (onNet : st.netLive net) (change : Finset ℕ → Finset ℕ) :
    st.updateDrvrs net change = some { st with netDrvrPinMap := st.updatedDrvrs net change } := by
  obtain ⟨cnet, hnet⟩ := Option.isSome_iff_exists.1 onNet
  have head : st.termHead net = cnet.terms := by simp [termHead,hnet]
  simp only [updateDrvrs,hnet,Option.bind_eq_bind,Option.bind_some,updatedDrvrs,head,clearNetDrvrPinMap]
  split <;> rfl

theorem PinsMoved.setDrvrs (moved : PinsMoved st st') (map : ℕ → Option (Finset ℕ)) :
    PinsMoved st { st' with netDrvrPinMap := map } :=
  moved.trans ⟨⟨rfl, rfl, rfl, rfl, rfl, rfl⟩, rfl⟩

theorem Threaded.setDrvrs {owner termOwner : ℕ → Option ℕ} (threaded : Threaded st owner termOwner pinList termList)
    (map : ℕ → Option (Finset ℕ)) : Threaded { st with netDrvrPinMap := map } owner termOwner pinList termList :=
  threaded.congr rfl rfl (fun _ live => live) (fun p n owned => ⟨rfl, rfl, (threaded.live p n owned).1⟩)
    fun t n owned => ⟨rfl, (threaded.termLive t n owned).1⟩

theorem Threaded.connectNetPin
    (threaded : Threaded st (Function.update st.pinOwner pin none) st.termOwner pinList termList)
    (owned : st.pinOwner pin = some net) (onNet : st.netLive net) :
    ∃ st', st.connectNetPin net pin = some st' ∧ PinsMoved st st' ∧
    st'.netDrvrPinMap = st.drvrsAfter (st.isDriver pin) net (insert pin) ∧
      ∃ pinList, Threaded st' st'.pinOwner st'.termOwner pinList termList := by
  obtain ⟨st₁, run, moved, drvrs, _, threaded₁⟩ :=
    threaded.addPin onNet (pinLive_of_owner owned) (Function.update_self ..)
  have whole : Function.update (Function.update st.pinOwner pin none) pin (some net) = st.pinOwner := by simp [← owned]
  have termOwner : st₁.termOwner = st.termOwner := by funext t; simp [ConcreteNetwork.termOwner,termData,moved.terms]
  rw [whole,← moved.pinOwner,← termOwner] at threaded₁
  have head : st₁.termHead net = st.termHead net := congrFun moved.termHead net
  have onNet₁ : st₁.netLive net := by rw [moved.live]; exact onNet
  by_cases driver : st.isDriver pin
  · let map := st₁.updatedDrvrs net (insert pin)
    refine ⟨{ st₁ with netDrvrPinMap := map }, ?_, moved.setDrvrs map, ?_, _, threaded₁.setDrvrs map⟩
    · simp only [ConcreteNetwork.connectNetPin,run,Option.bind_eq_bind,Option.bind_some,moved.isDriver,driver,if_true]
      exact updateDrvrs_spec onNet₁ (insert pin)
    · simp [map,drvrsAfter,updatedDrvrs,driver,head,drvrs]
  · refine ⟨st₁, ?_, moved, by simp [drvrsAfter,driver,drvrs], _, threaded₁⟩
    simp [ConcreteNetwork.connectNetPin,run,moved.isDriver,driver]

theorem Threaded.disconnectNetPin (threaded : Threaded st st.pinOwner st.termOwner pinList termList)
    (owned : st.pinOwner pin = some net) :
    ∃ st', st.disconnectNetPin net pin = some st' ∧ PinsMoved st st' ∧
    st'.netDrvrPinMap = st.drvrsAfter (st.isDriver pin) net (·.erase pin) ∧
      ∃ pinList, Threaded st' (Function.update st'.pinOwner pin none) st'.termOwner pinList termList := by
  obtain ⟨st₁, run, moved, drvrs, threaded₁⟩ := threaded.deletePin owned
  have termOwner : st₁.termOwner = st.termOwner := by funext t; simp [ConcreteNetwork.termOwner,termData,moved.terms]
  rw [← moved.pinOwner,← termOwner] at threaded₁
  have head : st₁.termHead net = st.termHead net := congrFun moved.termHead net
  have onNet₁ : st₁.netLive net := by rw [moved.live]; exact (threaded.live pin net owned).2
  have owned₁ : st₁.pinOwner pin = some net := by rw [moved.pinOwner]; exact owned
  obtain ⟨cpin, hpin⟩ := Option.isSome_iff_exists.1 (pinLive_of_owner owned₁)
  have on : cpin.net = some net := by simpa [ConcreteNetwork.pinOwner,pinData,hpin,ConcretePin.unlinked] using owned₁
  by_cases driver : st.isDriver pin
  · let map := st₁.updatedDrvrs net (·.erase pin)
    refine ⟨{ st₁ with netDrvrPinMap := map }, ?_, moved.setDrvrs map, ?_, _, threaded₁.setDrvrs map⟩
    · simp only [ConcreteNetwork.disconnectNetPin,run,Option.bind_eq_bind,Option.bind_some,moved.isDriver,driver,
        if_true,hpin,on]
      exact updateDrvrs_spec onNet₁ (·.erase pin)
    · simp [map,drvrsAfter,updatedDrvrs,driver,head,drvrs]
  · refine ⟨st₁, ?_, moved, by simp [drvrsAfter,driver,drvrs], _, threaded₁⟩
    simp [ConcreteNetwork.disconnectNetPin,run,moved.isDriver,driver]

theorem Threaded.disconnectNetPinIf (threaded : Threaded st st.pinOwner st.termOwner pinList termList)
    {onNet : Option ℕ} (owned : st.pinOwner pin = onNet) :
    ∃ st', st.disconnectNetPinIf onNet pin = some st' ∧ PinsMoved st st' ∧
      (∀ net, onNet = some net → st'.netDrvrPinMap = st.drvrsAfter (st.isDriver pin) net (·.erase pin)) ∧
      (onNet = none → st'.netDrvrPinMap = st.netDrvrPinMap) ∧
      ∃ pinList, Threaded st' (Function.update st'.pinOwner pin none) st'.termOwner pinList termList := by
  cases onNet with
  | none =>
    refine ⟨st, rfl, ⟨⟨rfl, rfl, rfl, rfl, rfl, rfl⟩, rfl⟩, by simp, fun _ => rfl, pinList, ?_⟩
    have whole : Function.update st.pinOwner pin none = st.pinOwner := by rw [← owned]; simp
    rw [whole]
    exact threaded
  | some net =>
    obtain ⟨st', run, moved, drvrs, pinList', threaded'⟩ := threaded.disconnectNetPin owned
    exact ⟨st', run, moved, by rintro n ⟨⟩; exact drvrs, by simp, pinList', threaded'⟩

end Attach

section Edits

variable {index : ℕ} {onNet : Option ℕ}

/-- What connects the objects, without the lists: the net of a pin or terminal and the terminal of a pin. -/
structure Netlist where
  pinNet : ℕ → Option ℕ
  pinTerm : ℕ → Option ℕ
  termNet : ℕ → Option ℕ
  termPin : ℕ → Option ℕ
  driver : ℕ → Bool

def netlist (st : ConcreteNetwork) : Netlist := ⟨st.pinOwner, st.pinTerm, st.termOwner, st.termPin, st.isDriver⟩

theorem PinsMoved.netlist (moved : PinsMoved st st') : st'.netlist = st.netlist := by
  have refs := moved.sameRefs
  have termOwner : st'.termOwner = st.termOwner := by funext t; simp [termOwner,termData,moved.terms]
  have driver : st'.isDriver = st.isDriver := funext moved.isDriver
  simp [ConcreteNetwork.netlist,moved.pinOwner,refs.pinTerm,termOwner,refs.termPin,driver]

theorem PinsMoved.refs (moved : PinsMoved st st') (refs : Refs st) : Refs st' :=
  refs.congr moved.sameRefs fun n live => by rwa [moved.live] at live

/-- The pin of the port, or the next one to be made, and whether it drives. -/
def ConnectedTo (st : ConcreteNetwork) (inst : ℕ) (port : ConcretePort) (p : ℕ) (driver : Bool) : Prop :=
  ∃ cinst, st.instances inst = some cinst ∧ match cinst.findPin port with
    | some q => p = q ∧ driver = st.isDriver q
    | none => p = st.objectId ∧ driver = st.drives inst port

theorem PinMade.isDriver (made : PinMade st st' inst port onNet) : st'.isDriver st.objectId = st.drives inst port := by
  have data := made.data st.objectId
  rw [if_pos rfl] at data
  obtain ⟨cpin, hpin, same⟩ := Option.map_eq_some_iff.1 data
  have onInst : cpin.inst = inst := congrArg (·.inst) same
  have onPort : cpin.port = port := congrArg (·.port) same
  have cell := made.cells inst
  simp only [ConcreteNetwork.isDriver,hpin,onInst,onPort,drives,made.top]
  cases there : st.instances inst <;> cases there' : st'.instances inst <;> simp_all

theorem PinMade.netlist (made : PinMade st st' inst port onNet) (inv : Inv st) :
    st'.netlist = { st.netlist with
      pinNet := Function.update st.pinOwner st.objectId onNet
      driver := Function.update st.isDriver st.objectId (st'.isDriver st.objectId) } := by
  obtain ⟨noTerm, _, _⟩ := inv.refs.noPin (le_refl st.objectId)
  have pinOwner : st'.pinOwner = Function.update st.pinOwner st.objectId onNet := by
    funext p
    by_cases eq : p = st.objectId <;> simp [ConcreteNetwork.pinOwner,made.data,eq]
  have pinTerm : st'.pinTerm = st.pinTerm := by
    funext p
    by_cases eq : p = st.objectId
    · rw [eq,noTerm]
      simp [ConcreteNetwork.pinTerm,made.data]
    · simp [ConcreteNetwork.pinTerm,made.data,eq]
  have termOwner : st'.termOwner = st.termOwner := by funext t; simp [ConcreteNetwork.termOwner,termData,made.terms]
  have termPin : st'.termPin = st.termPin := by funext t; simp [ConcreteNetwork.termPin,termData,made.terms]
  have driver : st'.isDriver = Function.update st.isDriver st.objectId (st'.isDriver st.objectId) := by
    funext p
    by_cases eq : p = st.objectId
    · simp [eq]
    · have data : st'.pinData p = st.pinData p := by simp [made.data,eq]
      simpa [eq] using isDriver_congr (by simp [pinInst,data]) (by simp [pinPort,data]) made.cells made.top
  rw [ConcreteNetwork.netlist,pinOwner,pinTerm,termOwner,termPin,driver]
  simp [ConcreteNetwork.netlist]

theorem Inv.makePin (inv : Inv st) (onInst : (st.instances inst).isSome) (isBit : port.pinIndex = some index)
    (live : ∀ n, onNet = some n → st.netLive n) :
    ∃ st', st.makePin inst port onNet = some st' ∧ Inv st' ∧
      (Stored st → (∀ cinst, st.instances inst = some cinst → cinst.findPin port = none) → Stored st') ∧
      st'.netlist = { st.netlist with
        pinNet := Function.update st.pinOwner st.objectId onNet
        driver := Function.update st.isDriver st.objectId (st.drives inst port) } ∧
      st'.netDrvrPinMap = match onNet with
        | some n => st.drvrsAfter (st.drives inst port) n (insert st.objectId)
        | none => st.netDrvrPinMap := by
  obtain ⟨st₁, run, made, ⟨pinList, termList, threaded⟩, refs, stored⟩ := inv.newPin onInst isBit onNet
  have netlist := made.netlist inv
  rw [made.isDriver] at netlist
  have pinOwner : st₁.pinOwner = Function.update st.pinOwner st.objectId onNet := congrArg (·.pinNet) netlist
  have fresh : st.pinOwner st.objectId = none := (inv.refs.noPin (le_refl st.objectId)).2.1
  have before : Function.update st₁.pinOwner st.objectId none = st.pinOwner := by
    rw [pinOwner,Function.update_idem,← fresh,Function.update_eq_self]
  rw [← before] at threaded
  have run' : (st.newPin inst port onNet).1.instAddPin inst port (st.newPin inst port onNet).2 = some st₁ := run
  cases onNet with
  | none =>
    refine ⟨st₁, ?_, ⟨⟨pinList, termList, ?_⟩, refs⟩, stored, netlist, made.drvrs⟩
    · simpa [ConcreteNetwork.makePin] using run'
    · rw [pinOwner,← fresh,Function.update_eq_self] at threaded ⊢
      simpa using threaded
  | some n =>
    have owned : st₁.pinOwner st.objectId = some n := by simp [pinOwner]
    have onNet₁ : st₁.netLive n := by simpa [netLive,made.nets] using live n rfl
    obtain ⟨st₂, run₂, moved, drvrs, pinList₂, threaded₂⟩ := threaded.connectNetPin owned onNet₁
    refine ⟨st₂, ?_, ⟨⟨pinList₂, termList, threaded₂⟩, moved.refs refs⟩, fun held empty =>
      (stored held empty).congr moved.sameRefs, ?_, ?_⟩
    · simp only [ConcreteNetwork.makePin,Option.bind_eq_bind,run',Option.bind_some]
      exact run₂
    · rw [moved.netlist]
      exact netlist
    · have head : st₁.termHead n = st.termHead n := by simp [termHead,made.nets]
      rw [drvrs,made.isDriver]
      simp [drvrsAfter,updatedDrvrs,head,made.drvrs]

/-- One pin has another terminal and another net. -/
structure Wired (st st' : ConcreteNetwork) (pin : ℕ) (term net : Option ℕ) : Prop where
  pinInst : st'.pinInst = st.pinInst
  pinPort : st'.pinPort = st.pinPort
  pinOwner : st'.pinOwner = Function.update st.pinOwner pin net
  pinTerm : st'.pinTerm = Function.update st.pinTerm pin term
  pinNext : st'.pinNext = st.pinNext
  pinPrev : st'.pinPrev = st.pinPrev

theorem setPin_wired {cpin : ConcretePin} (hpin : st.pins pin = some cpin) (term net : Option ℕ) :
    Wired st (st.setPin pin (some { cpin with term := term, net := net })) pin term net where
  pinInst := by
    funext p
    rw [ConcreteNetwork.pinInst,pinData_setPin]
    by_cases eq : p = pin <;> simp [ConcreteNetwork.pinInst,eq,ConcretePin.unlinked,pinData,hpin]
  pinPort := by
    funext p
    rw [ConcreteNetwork.pinPort,pinData_setPin]
    by_cases eq : p = pin <;> simp [ConcreteNetwork.pinPort,eq,ConcretePin.unlinked,pinData,hpin]
  pinOwner := by
    funext p
    rw [pinOwner_setPin]
    by_cases eq : p = pin <;> simp [eq,ConcreteNetwork.pinOwner]
  pinTerm := by
    funext p
    rw [ConcreteNetwork.pinTerm,pinData_setPin]
    by_cases eq : p = pin <;> simp [ConcreteNetwork.pinTerm,eq,ConcretePin.unlinked]
  pinNext := by
    funext p
    by_cases eq : p = pin <;> simp [ConcreteNetwork.pinNext,setPin,eq,hpin]
  pinPrev := by
    funext p
    by_cases eq : p = pin <;> simp [ConcreteNetwork.pinPrev,setPin,eq,hpin]

theorem Wired.pinIndex {onTerm onNet : Option ℕ} (wired : Wired st st' pin onTerm onNet) :
    st'.pinIndex = st.pinIndex := by
  funext p
  simp [ConcreteNetwork.pinIndex,wired.pinPort]

theorem Wired.isDriver {onTerm onNet : Option ℕ} (wired : Wired st st' pin onTerm onNet)
    (instances : st'.instances = st.instances) (top : st'.topInstance = st.topInstance) :
    st'.isDriver = st.isDriver := by
  funext p
  exact isDriver_congr (congrFun wired.pinInst p) (congrFun wired.pinPort p) (fun i => by rw [instances]) top

theorem newTerm_termData (t : ℕ) :
    (st.newTerm pin onNet).1.termData t = if t = st.objectId then some ⟨pin, onNet, st.objectId, none⟩
    else st.termData t := by
  simp only [ConcreteNetwork.newTerm,termData,setTerm]
  by_cases eq : t = st.objectId <;> simp [eq,ConcreteTerm.unlinked]

theorem newTerm_termOwner : (st.newTerm pin onNet).1.termOwner = Function.update st.termOwner st.objectId onNet := by
  funext t
  by_cases eq : t = st.objectId <;> simp [termOwner,newTerm_termData,eq]

theorem newTerm_termPin : (st.newTerm pin onNet).1.termPin = Function.update st.termPin st.objectId (some pin) := by
  funext t
  by_cases eq : t = st.objectId <;> simp [termPin,newTerm_termData,eq]

theorem Refs.termOwner_fresh (refs : Refs st) : st.termOwner st.objectId = none := by
  simp [termOwner,(refs.fresh st.objectId (le_refl _)).2.1]

theorem Refs.termPin_fresh (refs : Refs st) : st.termPin st.objectId = none := by
  simp [termPin,(refs.fresh st.objectId (le_refl _)).2.1]

theorem Threaded.addNewTerm {owner : ℕ → Option ℕ} {pinList termList : ℕ → List ℕ}
    (threaded : Threaded st owner st.termOwner pinList termList) (pin : ℕ) (refs : Refs st)
    (live : ∀ n, onNet = some n → st.netLive n) :
    ∃ st₁, (st.newTerm pin onNet).1.netAddTermIf onNet st.objectId = some st₁ ∧
    TermsMoved (st.newTerm pin onNet).1 st₁ ∧
      st₁.netDrvrPinMap = st.netDrvrPinMap ∧ ∃ termList, Threaded st₁ owner st₁.termOwner pinList termList := by
  let st₀ := (st.newTerm pin onNet).1
  have threaded₀ : Threaded st₀ owner st.termOwner pinList termList := by
    refine threaded.congr rfl rfl (fun _ live => live) (fun p n owned => ⟨rfl, rfl, (threaded.live p n owned).1⟩) fun t
      n owned => ?_
    have old : t ≠ st.objectId := fun eq => by simp [eq,refs.termOwner_fresh] at owned
    have same : st₀.terms t = st.terms t := by simp [st₀,ConcreteNetwork.newTerm,setTerm,old]
    simpa [termNext,same] using (threaded.termLive t n owned).1
  have termOwner₀ : st₀.termOwner = Function.update st.termOwner st.objectId onNet := newTerm_termOwner
  cases onNet with
  | none =>
    refine ⟨st₀, rfl, ⟨⟨rfl, rfl, rfl, rfl, rfl, rfl⟩, rfl⟩, rfl, termList, ?_⟩
    rw [termOwner₀,← refs.termOwner_fresh,Function.update_eq_self]
    exact threaded₀
  | some n =>
    have onTerm₀ : (st₀.terms st.objectId).isSome := by simp [st₀,ConcreteNetwork.newTerm,setTerm]
    obtain ⟨st₁, run, moved, drvrs, _, threaded₁⟩ := threaded₀.addTerm (live n rfl) onTerm₀ refs.termOwner_fresh
    rw [← termOwner₀,← moved.termOwner] at threaded₁
    exact ⟨st₁, run, moved, drvrs, _, threaded₁⟩

theorem Refs.refers_update (refs : Refs st) (noTerm : st.pinTerm pin = none) (t p : ℕ) :
    Function.update st.termPin st.objectId (some pin) t = some p ↔ Function.update st.pinTerm pin (some st.objectId) p =
    some t := by
  by_cases isNew : t = st.objectId <;> by_cases eq : p = pin
  · simp [isNew,eq]
  · have none := refs.refers st.objectId p
    simp [refs.termPin_fresh] at none
    simpa [isNew,eq,Ne.symm eq] using none
  · have none := refs.refers t pin
    simp [noTerm] at none
    simpa [isNew,eq,Ne.symm isNew] using none
  · simpa [isNew,eq] using refs.refers t p

theorem Threaded.newTerm {newNet : Option ℕ} {pinList termList : ℕ → List ℕ}
    (threaded : Threaded st (Function.update st.pinOwner pin newNet) st.termOwner pinList termList) (refs : Refs st)
    (onPin : (st.pins pin).isSome) (noTerm : st.pinTerm pin = none) (live : ∀ n, onNet = some n → st.netLive n) :
    ∃ st₁ st', (st.newTerm pin onNet).1.netAddTermIf onNet st.objectId = some st₁ ∧
      (∀ change : ConcretePin → ConcretePin,
        (∀ cpin, st.pins pin = some cpin → change cpin = { cpin with term := some st.objectId, net := newNet }) →
        st₁.modifyPin pin change = some st') ∧
      Inv st' ∧ (Stored st → Stored st') ∧
      st'.netlist = { st.netlist with
        pinNet := Function.update st.pinOwner pin newNet
        pinTerm := Function.update st.pinTerm pin (some st.objectId)
        termNet := Function.update st.termOwner st.objectId onNet
        termPin := Function.update st.termPin st.objectId (some pin) } ∧
      st'.netDrvrPinMap = st.netDrvrPinMap := by
  obtain ⟨cpin, hpin⟩ := Option.isSome_iff_exists.1 onPin
  obtain ⟨st₁, run, moved, drvrs, termList₁, threaded₁⟩ := threaded.addNewTerm pin refs live
  have hpin₁ : st₁.pins pin = some cpin := by rw [moved.pins]; exact hpin
  let st' := st₁.setPin pin (some { cpin with term := some st.objectId, net := newNet })
  have wired : Wired st₁ st' pin (some st.objectId) newNet := setPin_wired hpin₁ _ _
  have same := moved.sameRefs
  have pinOwner₁ : st₁.pinOwner = st.pinOwner := by
    funext p
    simp only [ConcreteNetwork.pinOwner,pinData,moved.pins]
    rfl
  have pinOwner : st'.pinOwner = Function.update st.pinOwner pin newNet := wired.pinOwner.trans (by rw [pinOwner₁])
  have pinTerm : st'.pinTerm = Function.update st.pinTerm pin (some st.objectId) :=
    wired.pinTerm.trans (by rw [same.pinTerm]; rfl)
  have pinInst : st'.pinInst = st.pinInst := wired.pinInst.trans same.pinInst
  have pinIndex : st'.pinIndex = st.pinIndex := wired.pinIndex.trans same.pinIndex
  have termOwner : st'.termOwner = Function.update st.termOwner st.objectId onNet :=
    moved.termOwner.trans newTerm_termOwner
  have termPin : st'.termPin = Function.update st.termPin st.objectId (some pin) := by
    funext t
    have same : st'.termPin t = (st.newTerm pin onNet).1.termPin t := by simp [st',ConcreteNetwork.termPin,moved.data]
    rw [same,newTerm_termPin]
  have instances : st'.instances = st.instances := moved.instances
  refine ⟨st₁, st', run, fun change eq =>
    ?_, ⟨⟨pinList, termList₁, ?_⟩, ⟨fun t p => ?_, fun p i here => ?_, fun i c k p here slot => ?_,
    fun a beyond => ?_⟩⟩, fun stored p i here => ?_, ?_, drvrs⟩
  · rw [modifyPin_some hpin₁,eq cpin hpin]
  · rw [pinOwner]
    refine threaded₁.congr rfl rfl (fun _ live => live) (fun p n owned =>
      ⟨congrFun wired.pinNext p, congrFun wired.pinPrev p, ?_⟩)
      fun t n owned => ⟨rfl, (threaded₁.termLive t n owned).1⟩
    by_cases eq : p = pin
    · simp [st',setPin,eq]
    · have onList := (threaded₁.live p n owned).1
      simpa [st',setPin,eq] using onList
  · rw [pinTerm,termPin]
    exact refs.refers_update noTerm t p
  · rw [instances,pinIndex]
    exact refs.room p i (pinInst ▸ here)
  · rw [pinInst,pinIndex]
    exact refs.slot i c k p (instances ▸ here) slot
  · have beyond' : st.objectId + 1 ≤ a := by
      have same : st'.objectId = st.objectId + 1 := moved.objectId
      omega
    obtain ⟨noPin, noTerm, noNet, noInst⟩ := refs.fresh a (by omega)
    have ne : a ≠ st.objectId := by omega
    refine ⟨?_, ?_, ?_, by rw [instances]; exact noInst⟩
    · rw [pinData_eq_none] at noPin ⊢
      exact (congrFun pinInst a).trans noPin
    · have same : st'.termData a = (st.newTerm pin onNet).1.termData a := by simp [st',moved.data]
      simpa [same,newTerm_termData,ne] using noTerm
    · have same : st'.netLive a = st.netLive a := by simp only [st',netLive_setPin,moved.live]; rfl
      rw [same]
      exact noNet
  · rw [instances,pinIndex]
    exact stored p i (pinInst ▸ here)
  · have driver : st'.isDriver = st.isDriver := (wired.isDriver rfl rfl).trans (funext (same.isDriver moved.top))
    rw [ConcreteNetwork.netlist,pinOwner,pinTerm,termOwner,termPin,driver]
    rfl

theorem Inv.makeTerm (inv : Inv st) (onPin : (st.pins pin).isSome) (live : ∀ n, onNet = some n → st.netLive n)
    (noTerm : st.pinTerm pin = none) :
    ∃ st', st.makeTerm pin onNet = some st' ∧ Inv st' ∧ (Stored st → Stored st') ∧
      st'.netlist = { st.netlist with
        pinTerm := Function.update st.pinTerm pin (some st.objectId)
        termNet := Function.update st.termOwner st.objectId onNet
        termPin := Function.update st.termPin st.objectId (some pin) } ∧
      st'.netDrvrPinMap = st.netDrvrPinMap := by
  obtain ⟨pinList, termList, threaded⟩ := inv.threaded
  have whole : Function.update st.pinOwner pin (st.pinOwner pin) = st.pinOwner := Function.update_eq_self ..
  have threaded' := threaded
  rw [← whole] at threaded'
  obtain ⟨st₁, st', run, set, inv', stored, netlist, drvrs⟩ := threaded'.newTerm inv.refs onPin noTerm live
  refine ⟨st', ?_, inv', stored, ?_, drvrs⟩
  · have run' : (st.newTerm pin onNet).1.netAddTermIf onNet (st.newTerm pin onNet).2 = some st₁ := run
    simp only [ConcreteNetwork.makeTerm,Option.bind_eq_bind,run',Option.bind_some]
    refine set _ fun cpin hpin => ?_
    have net : st.pinOwner pin = cpin.net := by simp [pinOwner,pinData,hpin,ConcretePin.unlinked]
    rw [net]
    rfl
  · rw [netlist,whole]
    rfl

theorem pinOwner_of_pins {cpin : ConcretePin} (here : st.pins pin = some cpin) : st.pinOwner pin = cpin.net := by
  simp [pinOwner,pinData,here,ConcretePin.unlinked]

theorem pinTerm_of_pins {cpin : ConcretePin} (here : st.pins pin = some cpin) : st.pinTerm pin = cpin.term := by
  simp [pinTerm,pinData,here,ConcretePin.unlinked]

theorem pinInst_of_pins {cpin : ConcretePin} (here : st.pins pin = some cpin) : st.pinInst pin = some cpin.inst := by
  simp [pinInst,pinData,here,ConcretePin.unlinked]

theorem setNet_spec (newNet : Option ℕ) {pinList termList : ℕ → List ℕ}
    (threaded : Threaded st (Function.update st.pinOwner pin none) st.termOwner pinList termList)
    (onPin : (st.pins pin).isSome) :
    ∃ st', st.modifyPin pin (fun cpin => { cpin with net := newNet }) = some st' ∧ SameRefs st st' ∧
    st'.netLive = st.netLive ∧
      st'.topInstance = st.topInstance ∧ st'.termHead = st.termHead ∧ st'.netDrvrPinMap = st.netDrvrPinMap ∧
      st'.pinOwner = Function.update st.pinOwner pin newNet ∧ st'.termOwner = st.termOwner ∧
      Threaded st' (Function.update st'.pinOwner pin none) st'.termOwner pinList termList := by
  obtain ⟨cpin, hpin⟩ := Option.isSome_iff_exists.1 onPin
  have frame : PinFrame st (st.setPin pin (some { cpin with net := newNet })) := ⟨rfl, rfl, rfl, rfl, rfl, rfl⟩
  have pinOwner : (st.setPin pin (some { cpin with net := newNet })).pinOwner =
    Function.update st.pinOwner pin newNet := by
    funext p
    rw [pinOwner_setPin]
    by_cases eq : p = pin <;> simp [eq]
  refine ⟨_, modifyPin_some hpin, frame.sameRefs fun p => ?_, rfl, rfl, rfl, rfl, pinOwner, rfl, ?_⟩
  · by_cases eq : p = pin
    · exact ⟨fun _ => newNet, by simp [eq,pinData,hpin,ConcretePin.unlinked,setPin]⟩
    · exact ⟨(·.net), by rw [pinData_setPin,if_neg eq]; cases st.pinData p <;> rfl⟩
  · rw [pinOwner,Function.update_idem]
    refine threaded.congr rfl rfl (fun _ live => live) (fun p n owned => ?_) fun t n owned =>
      ⟨rfl, (threaded.termLive t n owned).1⟩
    by_cases eq : p = pin
    · simp [eq] at owned
    · have onList := (threaded.live p n owned).1
      simpa [setPin,pinNext,pinPrev,eq] using onList

theorem SameRefs.netlist (same : SameRefs st st') (top : st'.topInstance = st.topInstance) :
    st'.netlist = { st.netlist with pinNet := st'.pinOwner, termNet := st'.termOwner } := by
  have driver : st'.isDriver = st.isDriver := funext (same.isDriver top)
  simp [ConcreteNetwork.netlist,same.pinTerm,same.termPin,driver]

/-- The driver entries once the pin is off its net. -/
def detachedDrvrs (st : ConcreteNetwork) (pin : ℕ) : ℕ → Option (Finset ℕ) :=
  match st.pinOwner pin with
  | some net => st.drvrsAfter (st.isDriver pin) net (·.erase pin)
  | none => st.netDrvrPinMap

theorem Threaded.detach {pinList termList : ℕ → List ℕ}
    (threaded : Threaded st st.pinOwner st.termOwner pinList termList) {cpin : ConcretePin}
    (hpin : st.pins pin = some cpin) :
    ∃ st', st.disconnectNetPinIf cpin.net pin = some st' ∧ PinsMoved st st' ∧ st'.netDrvrPinMap = st.detachedDrvrs pin ∧
      ∃ pinList, Threaded st' (Function.update st'.pinOwner pin none) st'.termOwner pinList termList := by
  have owned := pinOwner_of_pins hpin
  obtain ⟨st', run, moved, drvrs, same, threaded'⟩ := threaded.disconnectNetPinIf owned
  refine ⟨st', run, moved, ?_, threaded'⟩
  cases net : cpin.net with
  | none => simp [detachedDrvrs,owned,net,same net]
  | some n => simp [detachedDrvrs,owned,net,drvrs n net]

theorem Inv.connectedPin (inv : Inv st) (onInst : (st.instances inst).isSome) (isBit : port.pinIndex = some index)
    (onNet : Option ℕ) :
    ∃ st₁ p, st.connectedPin inst port onNet = some (st₁, p) ∧ (st₁.pins p).isSome ∧
      (∃ pinList termList, Threaded st₁ (Function.update st₁.pinOwner p none) st₁.termOwner pinList termList) ∧
      Refs st₁ ∧ (Stored st → Stored st₁) ∧
      st₁.netlist = { st.netlist with
        pinNet := Function.update st.pinOwner p (st₁.pinOwner p)
        driver := Function.update st.isDriver p (st₁.isDriver p) } ∧
      (st₁.netLive = st.netLive ∧ st₁.topInstance = st.topInstance ∧ st₁.termHead = st.termHead) ∧
      st₁.netDrvrPinMap = st.detachedDrvrs p ∧ ConnectedTo st inst port p (st₁.isDriver p) := by
  obtain ⟨cinst, hinst⟩ := Option.isSome_iff_exists.1 onInst
  cases found : cinst.findPin port with
  | none =>
    obtain ⟨st₁, run, made, ⟨pinList, termList, threaded⟩, refs, stored⟩ := inv.newPin onInst isBit onNet
    have netlist := made.netlist inv
    have pinOwner : st₁.pinOwner = Function.update st.pinOwner st.objectId onNet := congrArg (·.pinNet) netlist
    have fresh : st.pinOwner st.objectId = none := (inv.refs.noPin (le_refl st.objectId)).2.1
    have before : Function.update st₁.pinOwner st.objectId none = st.pinOwner := by
      rw [pinOwner,Function.update_idem,← fresh,Function.update_eq_self]
    refine ⟨st₁, st.objectId, ?_, ?_, ⟨pinList, termList, before ▸ threaded⟩, refs, fun held =>
      stored held fun c hc => ?_, ?_,
      ⟨?_, made.top, ?_⟩, ?_, ⟨cinst, hinst, by rw [found]; exact ⟨rfl, made.isDriver⟩⟩⟩
    · have run' : (st.newPin inst port onNet).1.instAddPin inst port (st.newPin inst port onNet).2 = some st₁ := run
      simp [ConcreteNetwork.connectedPin,hinst,found,run']
      rfl
    · rw [← pinData_isSome]
      simp [made.data]
    · exact Option.some.inj (hinst.symm.trans hc) ▸ found
    · rw [netlist,pinOwner]
      simp
    · funext n
      simp [netLive,made.nets]
    · funext n
      simp [termHead,made.nets]
    · simp [detachedDrvrs,fresh,made.drvrs]
  | some p =>
    have slot := (ConcreteInstance.findPin_eq_some isBit).1 found
    have onPin : (st.pins p).isSome := by
      have there := (inv.refs.slot inst cinst index p hinst slot).1
      rw [← pinData_isSome]
      cases here : st.pinData p <;> simp [pinInst,here] at there ⊢
    obtain ⟨cpin, hpin⟩ := Option.isSome_iff_exists.1 onPin
    obtain ⟨pinList, termList, threaded⟩ := inv.threaded
    obtain ⟨st₁, run, moved, drvrs, pinList₁, threaded₁⟩ := threaded.detach hpin
    refine ⟨st₁, p, ?_, ?_, ⟨pinList₁, termList, threaded₁⟩, moved.refs inv.refs, fun held =>
      held.congr moved.sameRefs, ?_,
      ⟨moved.live, moved.top, moved.termHead⟩, drvrs, ⟨cinst, hinst, by rw [found]; exact ⟨rfl, moved.isDriver p⟩⟩⟩
    · simp [ConcreteNetwork.connectedPin,hinst,found,hpin,run]
    · rw [moved.pinLive]
      exact onPin
    · rw [moved.netlist,moved.pinOwner,moved.isDriver]
      simp [ConcreteNetwork.netlist]

theorem Inv.connect (inv : Inv st) (onInst : (st.instances inst).isSome) (isBit : port.pinIndex = some index)
    (live : ∀ n, onNet = some n → st.netLive n) (needs : st.topInstance ≠ some inst → onNet.isSome)
    (noTerm : st.topInstance = some inst → ∀ cinst p, st.instances inst = some cinst → cinst.findPin port = some p →
      st.pinTerm p = none) :
    ∃ st' p, st.connect inst port onNet = some st' ∧ Inv st' ∧ (Stored st → Stored st') ∧
      ConnectedTo st inst port p (st'.isDriver p) ∧
      if st.topInstance = some inst then
        (∃ t, st.termPin t = none ∧ st.termOwner t = none ∧ st'.netlist = { st.netlist with
          pinNet := Function.update st.pinOwner p none
          driver := Function.update st.isDriver p (st'.isDriver p)
          pinTerm := Function.update st.pinTerm p (some t)
          termNet := Function.update st.termOwner t onNet
          termPin := Function.update st.termPin t (some p) }) ∧
        st'.netDrvrPinMap = st.detachedDrvrs p
      else
        st'.netlist = { st.netlist with
          pinNet := Function.update st.pinOwner p onNet
          driver := Function.update st.isDriver p (st'.isDriver p) } ∧
        ∃ n, onNet = some n ∧
          st'.netDrvrPinMap = drvrsAfter { st with netDrvrPinMap := st.detachedDrvrs p } (st'.isDriver p) n
            (insert p) := by
  obtain ⟨st₁, p, run, onPin, ⟨pinList, termList, threaded⟩, refs, stored, netlist, ⟨netLive, top, termHead⟩,
    drvrs, origin⟩ :=
    inv.connectedPin onInst isBit onNet
  have pinTerm : st₁.pinTerm = st.pinTerm := congrArg (·.pinTerm) netlist
  have pinOwner : st₁.pinOwner = Function.update st.pinOwner p (st₁.pinOwner p) := congrArg (·.pinNet) netlist
  have termOwner : st₁.termOwner = st.termOwner := congrArg (·.termNet) netlist
  have termPin : st₁.termPin = st.termPin := congrArg (·.termPin) netlist
  have driver : st₁.isDriver = Function.update st.isDriver p (st₁.isDriver p) := congrArg (·.driver) netlist
  have live₁ : ∀ n, onNet = some n → st₁.netLive n := fun n eq => by rw [netLive]; exact live n eq
  by_cases isTop : st.topInstance = some inst
  · have isTop₁ : st₁.topInstance = some inst := top.trans isTop
    have noTerm₁ : st₁.pinTerm p = none := by
      rw [pinTerm]
      obtain ⟨cinst, hinst, place⟩ := origin
      cases found : cinst.findPin port with
      | some q =>
        rw [found] at place
        exact noTerm isTop cinst p hinst (place.1 ▸ found)
      | none =>
        rw [found] at place
        exact (inv.refs.noPin (place.1 ▸ le_refl st.objectId)).1
    obtain ⟨st₂, st', run₂, set, inv', stored', netlist', drvrs'⟩ := threaded.newTerm refs onPin noTerm₁ live₁
    obtain ⟨_, noData, _, _⟩ := refs.fresh st₁.objectId (le_refl _)
    have driver' : st'.isDriver = st₁.isDriver := congrArg (·.driver) netlist'
    refine ⟨st', p, ?_, inv', fun held => stored' (stored held), by rw [driver']; exact origin, ?_⟩
    · have run₂' : (st₁.newTerm p onNet).1.netAddTermIf onNet (st₁.newTerm p onNet).2 = some st₂ := run₂
      simp only [ConcreteNetwork.connect,run,Option.bind_eq_bind,Option.bind_some,isTop₁,if_true,run₂']
      exact set _ fun cpin _ => rfl
    · rw [if_pos isTop]
      refine ⟨⟨st₁.objectId, ?_, ?_, ?_⟩, drvrs'.trans drvrs⟩
      · rw [← termPin]
        simp [ConcreteNetwork.termPin,noData]
      · rw [← termOwner]
        simp [ConcreteNetwork.termOwner,noData]
      · rw [netlist',driver',netlist,pinOwner,pinTerm,termOwner,termPin]
        simp
  · obtain ⟨n, rfl⟩ := Option.isSome_iff_exists.1 (needs isTop)
    have notTop₁ : st₁.topInstance ≠ some inst := fun eq => isTop (top.symm.trans eq)
    obtain ⟨st₂, run₂, same, netLive₂, top₂, termHead₂, drvrs₂, pinOwner₂, termOwner₂, threaded₂⟩ :=
      setNet_spec (some n) threaded onPin
    have owned : st₂.pinOwner p = some n := by simp [pinOwner₂]
    obtain ⟨st', run₃, moved, drvrs₃, pinList₃, threaded₃⟩ :=
      threaded₂.connectNetPin owned (by rw [netLive₂,netLive]; exact live n rfl)
    have driver₂ : st₂.isDriver p = st₁.isDriver p := same.isDriver top₂ p
    have driver' : st'.isDriver p = st₁.isDriver p := (moved.isDriver p).trans driver₂
    have refs₂ := refs.congr same fun m live => by rwa [netLive₂] at live
    refine ⟨st', p, ?_, ⟨⟨pinList₃, termList, threaded₃⟩, moved.refs refs₂⟩, fun held =>
      ((stored held).congr same).congr moved.sameRefs,
      by rw [driver']; exact origin, ?_⟩
    · simp only [ConcreteNetwork.connect,run,Option.bind_eq_bind,Option.bind_some,notTop₁,if_false,run₂]
      exact run₃
    · rw [if_neg isTop]
      refine ⟨?_, n, rfl, ?_⟩
      · rw [moved.netlist,same.netlist top₂,pinOwner₂,termOwner₂,netlist,driver',pinOwner,termOwner]
        simp [ConcreteNetwork.netlist]
      · have head : st₂.termHead n = st.termHead n := by rw [termHead₂,termHead]
        have entries : st₂.netDrvrPinMap = st.detachedDrvrs p := drvrs₂.trans drvrs
        simp only [drvrs₃,driver₂,driver',drvrsAfter,updatedDrvrs,head,entries]
        rfl

theorem Inv.dropTerm {pinList termList : ℕ → List ℕ} (refs : Refs st)
    (threaded : Threaded st st.pinOwner (Function.update st.termOwner term none) pinList termList) {cpin : ConcretePin}
    (hpin : st.pins pin = some cpin) (has : cpin.term = some term) :
    Inv ((st.setPin pin (some { cpin with term := none })).setTerm term none) ∧
      (Stored st → Stored ((st.setPin pin (some { cpin with term := none })).setTerm term none)) ∧
      ((st.setPin pin (some { cpin with term := none })).setTerm term none).netlist = { st.netlist with
        pinTerm := Function.update st.pinTerm pin none
        termNet := Function.update st.termOwner term none
        termPin := Function.update st.termPin term none } := by
  let st' := (st.setPin pin (some { cpin with term := none })).setTerm term none
  have pinTermPin : st.pinTerm pin = some term := (pinTerm_of_pins hpin).trans has
  have wired : Wired st st' pin none cpin.net := by
    obtain ⟨pinInst, pinPort, pinOwner, pinTerm, pinNext, pinPrev⟩ := setPin_wired hpin none cpin.net
    exact ⟨pinInst, pinPort, pinOwner, pinTerm, pinNext, pinPrev⟩
  have pinOwner : st'.pinOwner = st.pinOwner := by
    rw [wired.pinOwner,← pinOwner_of_pins hpin,Function.update_eq_self]
  have pinTerm : st'.pinTerm = Function.update st.pinTerm pin none := wired.pinTerm
  have pinInst : st'.pinInst = st.pinInst := wired.pinInst
  have pinIndex : st'.pinIndex = st.pinIndex := wired.pinIndex
  have termOwner : st'.termOwner = Function.update st.termOwner term none := by
    funext t
    rw [termOwner_setTerm]
    by_cases eq : t = term <;> simp [eq]
    rfl
  have termPin : st'.termPin = Function.update st.termPin term none := by
    funext t
    rw [ConcreteNetwork.termPin,termData_setTerm]
    by_cases eq : t = term <;> simp [ConcreteNetwork.termPin,eq]
  have driver : st'.isDriver = st.isDriver := wired.isDriver rfl rfl
  refine ⟨⟨⟨pinList, termList, ?_⟩, ⟨fun t p => ?_, fun p i here => ?_, fun i c k p here slot =>
    ?_, fun a beyond => ?_⟩⟩,
    fun stored p i here => ?_, ?_⟩
  · change Threaded st' st'.pinOwner st'.termOwner pinList termList
    rw [pinOwner,termOwner]
    refine threaded.congr rfl rfl (fun _ live => live) (fun p n owned =>
      ⟨congrFun wired.pinNext p, congrFun wired.pinPrev p, ?_⟩)
      fun t n owned => ?_
    · by_cases eq : p = pin
      · simp [st',setPin,setTerm,eq]
      · have onList := (threaded.live p n owned).1
        simpa [st',setPin,setTerm,eq] using onList
    · by_cases eq : t = term
      · simp [eq] at owned
      · have onList := (threaded.termLive t n owned).1
        simpa [st',setPin,setTerm,termNext,eq] using onList
  · change st'.termPin t = some p ↔ st'.pinTerm p = some t
    rw [pinTerm,termPin]
    have refers := refs.refers t p
    by_cases isTerm : t = term <;> by_cases eq : p = pin
    · simp [isTerm,eq]
    · have owner := (refs.refers term pin).2 pinTermPin
      simp [isTerm,owner,Ne.symm eq] at refers
      simpa [isTerm,eq] using refers
    · simp [eq,pinTermPin,Ne.symm isTerm] at refers
      simpa [isTerm,eq] using refers
    · simpa [isTerm,eq] using refers
  · rw [pinIndex]
    exact refs.room p i (pinInst ▸ here)
  · change st'.pinInst p = some i ∧ st'.pinIndex p = some k
    rw [pinInst,pinIndex]
    exact refs.slot i c k p here slot
  · obtain ⟨noPin, noTerm, noNet, noInst⟩ := refs.fresh a beyond
    have other : a ≠ pin := fun eq => by simp [eq,pinData,hpin] at noPin
    refine ⟨?_, ?_, noNet, noInst⟩
    · simpa [other] using noPin
    · by_cases eq : a = term <;> simp [eq]
      simpa [eq] using noTerm
  · obtain ⟨c, k, hc, place, slot⟩ := stored p i (pinInst ▸ here)
    refine ⟨c, k, hc, ?_, slot⟩
    change st'.pinIndex p = some k
    rw [pinIndex]
    exact place
  · change st'.netlist = _
    rw [ConcreteNetwork.netlist,pinOwner,pinTerm,termOwner,termPin,driver]
    rfl

theorem Inv.disconnectPin (inv : Inv st) {cpin : ConcretePin} (hpin : st.pins pin = some cpin) :
    ∃ st', st.disconnectPin pin = some st' ∧ Inv st' ∧ (Stored st → Stored st') ∧
      if st.topInstance = some cpin.inst then
        match cpin.term with
        | none => st' = st
        | some t => st'.netlist = { st.netlist with
              pinTerm := Function.update st.pinTerm pin none
              termNet := Function.update st.termOwner t none
              termPin := Function.update st.termPin t none } ∧
            st'.netDrvrPinMap = if st.termOwner t = none then st.netDrvrPinMap else fun _ => none
      else
        st'.netlist = { st.netlist with pinNet := Function.update st.pinOwner pin none } ∧
          st'.netDrvrPinMap = st.detachedDrvrs pin := by
  obtain ⟨pinList, termList, threaded⟩ := inv.threaded
  by_cases isTop : st.topInstance = some cpin.inst
  · cases has : cpin.term with
    | none => exact ⟨st, by simp [ConcreteNetwork.disconnectPin,hpin,isTop,has], inv, id, by simp [isTop]⟩
    | some t =>
      have refers := (inv.refs.refers t pin).2 ((pinTerm_of_pins hpin).trans has)
      obtain ⟨cterm, hterm⟩ : ∃ cterm, st.terms t = some cterm := by
        cases here : st.terms t with
        | none => simp [termPin,termData,here] at refers
        | some cterm => exact ⟨cterm, rfl⟩
      have owner : st.termOwner t = cterm.net := by simp [termOwner,termData,hterm,ConcreteTerm.unlinked]
      cases onNet : cterm.net with
      | none =>
        have whole : Function.update st.termOwner t none = st.termOwner := by
          rw [← onNet,← owner,Function.update_eq_self]
        obtain ⟨inv', stored, netlist⟩ := Inv.dropTerm inv.refs (whole.symm ▸ threaded) hpin has
        refine ⟨_, ?_, inv', stored, ?_⟩
        · simp [ConcreteNetwork.disconnectPin,hpin,isTop,has,hterm,onNet,modifyPin_some hpin]
        · simp only [isTop,if_true]
          exact ⟨netlist, by rw [owner,onNet,if_pos rfl]; rfl⟩
      | some n =>
        have fresh : ∀ a, st.objectId ≤ a → st.terms a = none := fun a beyond => by
          simpa [termData] using (inv.refs.fresh a beyond).2.1
        obtain ⟨st₁, run, moved, drvrs, threaded₁⟩ := threaded.deleteTerm (owner.trans onNet) fresh
        let st₂ := st₁.clearNetDrvrPinMap
        have moved₂ : TermsMoved st st₂ := moved.trans ⟨⟨rfl, rfl, rfl, rfl, rfl, rfl⟩, rfl⟩
        have pinOwner₂ : st₂.pinOwner = st.pinOwner := by funext p; simp [pinOwner,pinData,moved₂.pins]
        have threaded₂ : Threaded st₂ st₂.pinOwner (Function.update st₂.termOwner t none) pinList
            (Function.update termList n ((termList n).erase t)) := by
          rw [pinOwner₂,moved₂.termOwner]
          exact threaded₁.setDrvrs _
        have hpin₂ : st₂.pins pin = some cpin := by rw [moved₂.pins]; exact hpin
        have refs₂ : Refs st₂ := inv.refs.congr moved₂.sameRefs fun m live => by rwa [moved₂.live] at live
        obtain ⟨inv', stored, netlist⟩ := Inv.dropTerm refs₂ threaded₂ hpin₂ has
        refine ⟨_, ?_, inv', fun held => stored (held.congr moved₂.sameRefs), ?_⟩
        · simp only [ConcreteNetwork.disconnectPin,hpin,Option.bind_eq_bind,Option.bind_some,isTop,if_true,has,
            hterm,onNet,run,
            Option.map_some]
          rw [modifyPin_some hpin₂]
          rfl
        · simp only [isTop,if_true]
          refine ⟨?_, by rw [owner,onNet]; simp [setTerm,setPin,st₂,clearNetDrvrPinMap]⟩
          have same := moved₂.sameRefs
          rw [netlist,same.netlist moved₂.top,same.pinTerm,moved₂.termOwner,same.termPin,pinOwner₂]
          rfl
  · obtain ⟨st₁, run, moved, drvrs, pinList₁, threaded₁⟩ := threaded.detach hpin
    have onPin₁ : (st₁.pins pin).isSome := by rw [moved.pinLive,hpin]; rfl
    obtain ⟨st', set, same, netLive, top, _, drvrs', pinOwner, termOwner, threaded'⟩ :=
      setNet_spec none threaded₁ onPin₁
    have off : Function.update st'.pinOwner pin none = st'.pinOwner := by rw [pinOwner,Function.update_idem]
    rw [off] at threaded'
    refine ⟨st', ?_, ⟨⟨pinList₁, termList, threaded'⟩, (moved.refs inv.refs).congr same fun m live => by
      rwa [netLive] at live⟩,
      fun held => (held.congr moved.sameRefs).congr same, ?_⟩
    · simp only [ConcreteNetwork.disconnectPin,hpin,Option.bind_eq_bind,Option.bind_some,isTop,if_false,run]
      exact set
    · simp only [isTop,if_false]
      refine ⟨?_, drvrs'.trans drvrs⟩
      rw [same.netlist top,pinOwner,termOwner,moved.netlist,moved.pinOwner]
      have termOwner₁ : st₁.termOwner = st.termOwner := congrArg (·.termNet) moved.netlist
      rw [termOwner₁]
      rfl

/-- A pin leaves its instance and the pins; the rest of the objects stay. -/
structure PinGone (st st' : ConcreteNetwork) (pin inst index : ℕ) (cinst cinst' : ConcreteInstance) : Prop where
  onInst : st.pinInst pin = some inst
  place : st.pinIndex pin = some index
  found : st.instances inst = some cinst
  cell : cinst'.cell = cinst.cell
  length : cinst'.pins.length = cinst.pins.length
  slots : ∀ k q, cinst'.pins[k]? = some (some q) ↔ k ≠ index ∧ cinst.pins[k]? = some (some q)
  data : ∀ p, st'.pinData p = if p = pin then none else st.pinData p
  pins : st'.pins pin = none
  instances : ∀ i, st'.instances i = if i = inst then some cinst' else st.instances i
  termData : st'.termData = st.termData
  live : st'.netLive = st.netLive
  objectId : st'.objectId = st.objectId
  top : st'.topInstance = st.topInstance

variable {cinst cinst' : ConcreteInstance}

theorem PinGone.old (gone : PinGone st st' pin inst index cinst cinst') {p i : ℕ} (here : st'.pinInst p = some i) :
    p ≠ pin ∧ st.pinInst p = some i ∧ st'.pinIndex p = st.pinIndex p := by
  have ne : p ≠ pin := fun eq => by simp [pinInst,gone.data,eq] at here
  exact ⟨ne, by simpa [pinInst,gone.data,ne] using here, by simp [pinIndex,pinPort,gone.data,ne]⟩

theorem PinGone.pinTerm (gone : PinGone st st' pin inst index cinst cinst') (noTerm : st.pinTerm pin = none) :
    st'.pinTerm = st.pinTerm := by
  funext p
  by_cases eq : p = pin
  · rw [eq,noTerm]
    simp [ConcreteNetwork.pinTerm,gone.data]
  · simp [ConcreteNetwork.pinTerm,gone.data,eq]

theorem PinGone.isDriver (gone : PinGone st st' pin inst index cinst cinst') :
    st'.isDriver = Function.update st.isDriver pin false := by
  funext p
  by_cases eq : p = pin
  · simp [eq,ConcreteNetwork.isDriver,gone.pins]
  · rw [Function.update_of_ne eq]
    refine isDriver_congr (by simp [pinInst,gone.data,eq]) (by simp [pinPort,gone.data,eq]) (fun i => ?_) gone.top
    rw [gone.instances]
    by_cases here : i = inst <;> simp [here,gone.found,gone.cell]

/-- A slot that is still filled was filled before, with a pin that is still there. -/
theorem PinGone.slot (gone : PinGone st st' pin inst index cinst cinst') (refs : Refs st) {i k p : ℕ}
    {c : ConcreteInstance} (here : st'.instances i = some c) (slot : c.pins[k]? = some (some p)) :
    p ≠ pin ∧ st.pinInst p = some i ∧ st.pinIndex p = some k := by
  rw [gone.instances] at here
  by_cases eq : i = inst
  · simp only [eq,if_true,Option.some.injEq] at here
    subst here
    obtain ⟨other, before⟩ := (gone.slots k p).1 slot
    have kept := refs.slot i cinst k p (eq ▸ gone.found) before
    refine ⟨fun isPin => other ?_, kept⟩
    rw [isPin,gone.place] at kept
    exact (Option.some.inj kept.2).symm
  · simp only [eq,if_false] at here
    have kept := refs.slot i c k p here slot
    refine ⟨fun isPin => eq ?_, kept⟩
    rw [isPin,gone.onInst] at kept
    exact (Option.some.inj kept.1).symm

theorem PinGone.refs (gone : PinGone st st' pin inst index cinst cinst') (refs : Refs st)
    (noTerm : st.pinTerm pin = none) : Refs st' where
  refers t p := by
    have termPin : st'.termPin t = st.termPin t := by simp [ConcreteNetwork.termPin,gone.termData]
    rw [gone.pinTerm noTerm,termPin]
    exact refs.refers t p
  room p i here := by
    obtain ⟨_, before, place⟩ := gone.old here
    obtain ⟨c, k, hc, there, short⟩ := refs.room p i before
    by_cases eq : i = inst
    · subst eq
      obtain rfl := Option.some.inj (gone.found.symm.trans hc)
      exact ⟨cinst', k, by simp [gone.instances], place.trans there, by rw [gone.length]; exact short⟩
    · exact ⟨c, k, by simp [gone.instances,eq,hc], place.trans there, short⟩
  slot i c k p here slot := by
    obtain ⟨ne, kept⟩ := gone.slot refs here slot
    simpa [pinInst,pinIndex,pinPort,gone.data,ne] using kept
  fresh a beyond := by
    obtain ⟨noPin, noTermData, noNet, noInst⟩ := refs.fresh a (gone.objectId ▸ beyond)
    have other : a ≠ inst := fun eq => by simp [eq,gone.found] at noInst
    exact ⟨by simp [gone.data,noPin], by rw [gone.termData]; exact noTermData, by rw [gone.live]; exact noNet,
      by simpa [gone.instances,other] using noInst⟩

theorem PinGone.stored (gone : PinGone st st' pin inst index cinst cinst') (stored : Stored st) : Stored st' := by
  intro p i here
  obtain ⟨ne, before, place⟩ := gone.old here
  obtain ⟨c, k, hc, there, slot⟩ := stored p i before
  by_cases eq : i = inst
  · subst eq
    obtain rfl := Option.some.inj (gone.found.symm.trans hc)
    -- the slot of the pin itself holds no other pin
    have other : k ≠ index := by
      rintro rfl
      obtain ⟨c', k', hc', there', slot'⟩ := stored pin i gone.onInst
      obtain rfl := Option.some.inj (gone.found.symm.trans hc')
      obtain rfl := Option.some.inj (gone.place.symm.trans there')
      exact ne (Option.some.inj (Option.some.inj (slot.symm.trans slot')))
    exact ⟨cinst', k, by simp [gone.instances], place.trans there, (gone.slots k p).2 ⟨other, slot⟩⟩
  · exact ⟨c, k, by simp [gone.instances,eq,hc], place.trans there, slot⟩

theorem Inv.deletePin (inv : Inv st) {cpin : ConcretePin} (hpin : st.pins pin = some cpin) (noTerm : cpin.term = none) :
    ∃ st', st.deletePin pin = some st' ∧ Inv st' ∧ (Stored st → Stored st') ∧
      st'.netlist = { st.netlist with
        pinNet := Function.update st.pinOwner pin none
        driver := Function.update st.isDriver pin false } ∧
      st'.netDrvrPinMap = st.detachedDrvrs pin := by
  obtain ⟨pinList, termList, threaded⟩ := inv.threaded
  obtain ⟨st₁, run, moved, drvrs, pinList₁, threaded₁⟩ := threaded.detach hpin
  have onInst := pinInst_of_pins hpin
  obtain ⟨cinst, index, found, place, inside⟩ := inv.refs.room pin cpin.inst onInst
  have isBit : cpin.port.pinIndex = some index := by
    simpa [pinIndex,pinPort,pinData,hpin,ConcretePin.unlinked] using place
  obtain ⟨cinst', deleted, cell, length, slots⟩ := ConcreteInstance.deletePin_spec isBit inside
  let st' := (st₁.setInstance cpin.inst cinst').setPin pin none
  have data : ∀ p, st'.pinData p = if p = pin then none else st.pinData p := fun p => by
    have inner : (st₁.setInstance cpin.inst cinst').pinData = st.pinData := moved.data
    rw [pinData_setPin,inner]
    rfl
  have instances : ∀ i, st'.instances i = if i = cpin.inst then some cinst' else st.instances i := fun i => by
    simp only [st',setPin,setInstance,Function.update_apply,moved.instances]
  have termData : st'.termData = st.termData := by
    funext t
    have inner : st'.termData t = st₁.termData t := rfl
    rw [inner,ConcreteNetwork.termData,moved.terms]
    rfl
  have gone : PinGone st st' pin cpin.inst index cinst cinst' :=
    ⟨onInst, place, found, cell, length, slots, data, by
      simp [st',setPin], instances, termData, moved.live, moved.objectId, moved.top⟩
  have noPinTerm : st.pinTerm pin = none := (pinTerm_of_pins hpin).trans noTerm
  have pinOwner : st'.pinOwner = Function.update st.pinOwner pin none := by
    funext p
    by_cases eq : p = pin <;> simp [ConcreteNetwork.pinOwner,data,eq]
  refine ⟨st', ?_, ⟨⟨pinList₁, termList, ?_⟩, gone.refs inv.refs noPinTerm⟩, gone.stored, ?_, drvrs⟩
  · have found₁ : st₁.instances cpin.inst = some cinst := by rw [moved.instances]; exact found
    simp [ConcreteNetwork.deletePin,hpin,run,found₁,deleted,st']
  · rw [pinOwner,← moved.pinOwner]
    refine threaded₁.congr rfl rfl (fun _ live => live) (fun p n owned => ?_) fun t n owned =>
      ⟨rfl, (threaded₁.termLive t n owned).1⟩
    by_cases eq : p = pin
    · simp [eq] at owned
    · have onList := (threaded₁.live p n owned).1
      simpa [st',setPin,setInstance,pinNext,pinPrev,eq] using onList
  · have termOwner : st'.termOwner = st.termOwner := by funext t; simp [ConcreteNetwork.termOwner,termData]
    have termPin : st'.termPin = st.termPin := by funext t; simp [ConcreteNetwork.termPin,termData]
    rw [ConcreteNetwork.netlist,pinOwner,gone.pinTerm noPinTerm,termOwner,termPin,gone.isDriver]
    rfl

end Edits

section Nets

variable {src : ℕ}

/-- A pin or terminal of `src` goes to the net `dst`. -/
def redirect (src : ℕ) (dst : Option ℕ) (owner : ℕ → Option ℕ) (a : ℕ) : Option ℕ :=
  if owner a = some src then dst else owner a

theorem Refs.pinFresh (refs : Refs st) {p : ℕ} (live : (st.pins p).isSome) : p < st.objectId := by
  by_contra beyond
  have noPin := (refs.fresh p (Nat.le_of_not_lt beyond)).1
  simp [pinData] at noPin
  simp [noPin] at live

theorem Refs.termFresh (refs : Refs st) {t : ℕ} (live : (st.terms t).isSome) : t < st.objectId := by
  by_contra beyond
  have noTerm := (refs.fresh t (Nat.le_of_not_lt beyond)).2.1
  simp [termData] at noTerm
  simp [noTerm] at live

variable {pinList termList : ℕ → List ℕ} {cur : Option ℕ}

theorem Threaded.pinList_short (threaded : Threaded st st.pinOwner st.termOwner pinList termList)
    (refs : Refs st) (n : ℕ) :
    (pinList n).length ≤ st.objectId :=
  length_le_of_lt (threaded.pins.chain n).nodup fun _ mem => refs.pinFresh (threaded.pinListLive mem)

theorem Threaded.termList_short (threaded : Threaded st st.pinOwner st.termOwner pinList termList)
    (refs : Refs st) (n : ℕ) :
    (termList n).length ≤ st.objectId :=
  length_le_of_lt (threaded.terms.chain n).nodup fun t mem =>
    refs.termFresh (threaded.termLive t n ((threaded.terms.owner n t).1 mem)).1

/-- When the pins on the list of a net get another net, all pins that had the net have the other one. -/
theorem Threaded.pinOwner_redirect (threaded : Threaded st st.pinOwner st.termOwner pinList termList) {dst : Option ℕ}
    (data : ∀ p, st'.pinData p = if p ∈ pinList src then (st.pinData p).map fun c => { c with net := dst }
      else st.pinData p) :
    st'.pinOwner = redirect src dst st.pinOwner := by
  funext p
  have mem := threaded.pins.owner src p
  rw [redirect,pinOwner,data]
  by_cases owned : st.pinOwner p = some src
  · have live := pinLive_of_owner owned
    rw [← pinData_isSome] at live
    obtain ⟨c, hc⟩ := Option.isSome_iff_exists.1 live
    simp [mem,owned,hc]
  · rw [if_neg (mem.not.2 owned),if_neg owned]
    rfl

theorem Threaded.termOwner_redirect (threaded : Threaded st st.pinOwner st.termOwner pinList termList) {dst : Option ℕ}
    (data : ∀ t, st'.termData t = if t ∈ termList src then (st.termData t).map fun c => { c with net := dst }
      else st.termData t) :
    st'.termOwner = redirect src dst st.termOwner := by
  funext t
  have mem := threaded.terms.owner src t
  rw [redirect,termOwner,data]
  by_cases owned : st.termOwner t = some src
  · have live := termLive_of_owner owned
    obtain ⟨c, hc⟩ := Option.isSome_iff_exists.1 live
    simp [mem,owned,termData,hc]
  · rw [if_neg (mem.not.2 owned),if_neg owned]
    rfl

theorem PinFrame.sameRefs_of_list (frame : PinFrame st st') {pins : List ℕ} {dst : Option ℕ}
    (data : ∀ p, st'.pinData p = if p ∈ pins then (st.pinData p).map fun c => { c with net := dst } else st.pinData p) :
    SameRefs st st' := by
  apply frame.sameRefs
  intro p
  by_cases mem : p ∈ pins
  · exact ⟨fun _ => dst, by rw [data,if_pos mem]⟩
  · exact ⟨(·.net), by rw [data,if_neg mem]; cases st.pinData p <;> rfl⟩

theorem TermFrame.sameRefs_of_list (frame : TermFrame st st') {terms : List ℕ} {dst : Option ℕ}
    (data : ∀ t, st'.termData t = if t ∈ terms then (st.termData t).map fun c => { c with net := dst } else st.termData
      t) :
    SameRefs st st' := by
  apply frame.sameRefs
  intro t
  by_cases mem : t ∈ terms
  · exact ⟨fun _ => dst, by rw [data,if_pos mem]⟩
  · exact ⟨(·.net), by rw [data,if_neg mem]; cases st.termData t <;> rfl⟩

theorem redirect_live {owner : ℕ → Option ℕ} (live : ∀ a n, owner a = some n → st.netLive n) (onNet : st.netLive net)
    {a n : ℕ} (owned : redirect src (some net) owner a = some n) : st.netLive n := by
  rw [redirect] at owned
  by_cases eq : owner a = some src
  · rw [if_pos eq] at owned
    exact Option.some.inj owned ▸ onNet
  · rw [if_neg eq] at owned
    exact live a n owned

theorem Threaded.mergePins (threaded : Threaded st st.pinOwner st.termOwner pinList termList) (refs : Refs st)
    (distinct : net ≠ src) (onNet : st.netLive net) {cnet : ConcreteNet} (hnet : st.nets src = some cnet) :
    ∃ st₁ cnet₁ st₂ pinList₂, ConcreteNetwork.mergePins net st.objectId cnet.pins st = some st₁ ∧
    st₁.nets src = some cnet₁ ∧
      st₂ = st₁.setNet src (some { cnet₁ with pins := none }) ∧ PinFrame st st₂ ∧ SameRefs st st₂ ∧
      st₂.pinOwner = redirect src (some net) st.pinOwner ∧
        Threaded st₂ st₂.pinOwner st₂.termOwner pinList₂ termList := by
  have head : st.pinHead src = cnet.pins := by simp [pinHead,hnet]
  have draining : Draining st src cnet.pins pinList := by
    refine ⟨?_, fun n _ => threaded.back n trivial, fun p n owned => (threaded.live p n owned).2⟩
    rw [← head,Function.update_eq_self]
    exact threaded.pins
  obtain ⟨st₁, pinList₁, run, frame₁, _, data, drained⟩ :=
    draining.mergePins distinct onNet rfl (threaded.pinList_short refs src)
  have onSrc : st₁.netLive src := by rw [frame₁.live]; simp [netLive,hnet]
  obtain ⟨cnet₁, hnet₁⟩ := Option.isSome_iff_exists.1 onSrc
  let st₂ := st₁.setNet src (some { cnet₁ with pins := none })
  have frame : PinFrame st st₂ := frame₁.trans (PinsMoved.setNet { cnet₁ with pins := none } hnet₁ rfl).toPinFrame
  have owner : st₂.pinOwner = redirect src (some net) st.pinOwner := threaded.pinOwner_redirect data
  have terms : st₂.termOwner = st.termOwner := by funext t; simp [termOwner,termData,frame.terms]
  refine ⟨st₁, cnet₁, st₂, pinList₁, run, hnet₁, rfl, frame, frame.sameRefs_of_list data, owner, ?_, fun n _ => ?_, ?_,
    fun p n owned => ⟨pinLive_of_owner owned, ?_⟩, fun t n owned => ?_⟩
  · have head₂ : st₂.pinHead = Function.update st₁.pinHead src none := by
      funext n
      by_cases eq : n = src <;> simp [st₂,eq]
    rw [head₂]
    exact drained.chains
  · by_cases eq : n = src
    · have empty := drained.chains.chain src
      rw [Function.update_self] at empty
      rw [eq,empty.unique (show IsList _ none [] from rfl)]
      trivial
    · exact drained.back n eq
  · have next : st₂.termNext = st.termNext := by funext t; simp [termNext,frame.terms]
    rw [frame.termHead,next,terms]
    exact threaded.terms
  · rw [frame.live]
    exact redirect_live (fun p n owned => (threaded.live p n owned).2) onNet (owner ▸ owned)
  · rw [terms] at owned
    rw [frame.terms,frame.live]
    exact threaded.termLive t n owned

theorem Threaded.mergeTerms (threaded : Threaded st st.pinOwner st.termOwner pinList termList) (refs : Refs st)
    (distinct : net ≠ src) (onNet : st.netLive net) (onSrc : st.netLive src) (termHead : st.termHead src = cur) :
    ∃ st₁ cnet₁ st₂ termList₂, ConcreteNetwork.mergeTerms net st.objectId cur st = some st₁ ∧
    st₁.nets src = some cnet₁ ∧
      st₂ = st₁.setNet src (some { cnet₁ with terms := none, mergedInto := some net }) ∧ TermFrame st st₂ ∧
        SameRefs st st₂ ∧
      st₂.termOwner = redirect src (some net) st.termOwner ∧
        Threaded st₂ st₂.pinOwner st₂.termOwner pinList termList₂ := by
  have draining : TermDraining st src cur termList := by
    refine ⟨?_, fun t n owned => (threaded.termLive t n owned).2⟩
    rw [← termHead,Function.update_eq_self]
    exact threaded.terms
  obtain ⟨st₁, termList₁, run, frame₁, _, data, drained⟩ :=
    draining.mergeTerms distinct onNet rfl (threaded.termList_short refs src)
  have onSrc₁ : st₁.netLive src := by rw [frame₁.live]; exact onSrc
  obtain ⟨cnet₁, hnet₁⟩ := Option.isSome_iff_exists.1 onSrc₁
  let st₂ := st₁.setNet src (some { cnet₁ with terms := none, mergedInto := some net })
  have frame : TermFrame st st₂ := frame₁.trans
    (TermsMoved.setNet { cnet₁ with terms := none, mergedInto := some net } hnet₁ rfl).toTermFrame
  have owner : st₂.termOwner = redirect src (some net) st.termOwner := threaded.termOwner_redirect data
  have pins : st₂.pinOwner = st.pinOwner := by funext p; simp [pinOwner,pinData,frame.pins]
  refine ⟨st₁, cnet₁, st₂, termList₁, run, hnet₁, rfl, frame, frame.sameRefs_of_list data, owner, ?_, ?_, ?_,
    fun p n owned => ?_,
    fun t n owned => ⟨termLive_of_owner owned, ?_⟩⟩
  · have next : st₂.pinNext = st.pinNext := by funext p; simp [pinNext,frame.pins]
    rw [frame.pinHead,next,pins]
    exact threaded.pins
  · have prev : st₂.pinPrev = st.pinPrev := by funext p; simp [pinPrev,frame.pins]
    rw [prev]
    exact threaded.back
  · have head₂ : st₂.termHead = Function.update st₁.termHead src none := by
      funext n
      by_cases eq : n = src <;> simp [st₂,eq]
    rw [head₂]
    exact drained.chains
  · rw [pins] at owned
    rw [frame.pins,frame.live]
    exact threaded.live p n owned
  · rw [frame.live]
    exact redirect_live (fun t n owned => (threaded.termLive t n owned).2) onNet (owner ▸ owned)

theorem Inv.mergeInto (inv : Inv st) (distinct : net ≠ src) (onSrc : st.netLive src) (onNet : st.netLive net) :
    ∃ st', st.mergeInto src net = some st' ∧ Inv st' ∧ (Stored st → Stored st') ∧
      st'.netlist = { st.netlist with
        pinNet := redirect src (some net) st.pinOwner
        termNet := redirect src (some net) st.termOwner } ∧
      st'.netDrvrPinMap = fun _ => none := by
  obtain ⟨pinList, termList, threaded⟩ := inv.threaded
  obtain ⟨cnet, hnet⟩ := Option.isSome_iff_exists.1 onSrc
  obtain ⟨st₁, cnet₁, st₂, pinList₂, run₁, hnet₁, def₂, frame₂, same₂, owner₂, threaded₂⟩ :=
    threaded.mergePins inv.refs distinct onNet hnet
  have live₂ : st₂.netLive = st.netLive := frame₂.live
  have head₂ : st₂.termHead src = cnet.terms := by
    rw [frame₂.termHead]
    simp [termHead,hnet]
  obtain ⟨st₃, cnet₃, st₄, termList₄, run₃, hnet₃, def₄, frame₄, same₄, owner₄, threaded₄⟩ :=
    threaded₂.mergeTerms (inv.refs.congr same₂ fun n live => live₂ ▸ live) distinct (live₂ ▸ onNet)
      (live₂ ▸ onSrc) head₂
  have same : SameRefs st st₄.clearNetDrvrPinMap := (same₂.trans same₄).trans ⟨rfl, rfl, rfl, rfl, rfl, rfl⟩
  have live : st₄.netLive = st.netLive := frame₄.live.trans live₂
  refine ⟨st₄.clearNetDrvrPinMap, ?_,
    ⟨⟨pinList₂, termList₄, threaded₄.setDrvrs _⟩, inv.refs.congr same fun n isLive => ?_⟩,
    fun stored => stored.congr same, ?_, rfl⟩
  · rw [def₂] at run₃
    simp only [ConcreteNetwork.mergeInto,netMergeInto,hnet,Option.bind_eq_bind,Option.bind_some,run₁,
      modifyNet_some hnet₁,run₃,
      modifyNet_some hnet₃,def₄]
    rfl
  · have eq : st₄.clearNetDrvrPinMap.netLive = st₄.netLive := rfl
    rwa [eq,live] at isLive
  · have pinNet : st₄.clearNetDrvrPinMap.pinOwner = st₂.pinOwner := by
      funext p
      have eq : st₄.pinOwner p = st₂.pinOwner p := by simp [pinOwner,pinData,frame₄.pins]
      exact eq
    have termNet : st₄.clearNetDrvrPinMap.termOwner = st₄.termOwner := rfl
    have termOwner₂ : st₂.termOwner = st.termOwner := by funext t; simp [termOwner,termData,frame₂.terms]
    have top : st₄.clearNetDrvrPinMap.topInstance = st.topInstance := frame₄.top.trans frame₂.top
    rw [same.netlist top,pinNet,owner₂,termNet,owner₄,termOwner₂]

theorem Inv.deleteNet (inv : Inv st) {cnet : ConcreteNet} (hnet : st.nets src = some cnet)
    (noTerms : cnet.terms = none) :
    ∃ st', st.deleteNet src = some st' ∧ Inv st' ∧ (Stored st → Stored st') ∧
      st'.netlist = { st.netlist with pinNet := redirect src none st.pinOwner } ∧
      st'.netDrvrPinMap = Function.update st.netDrvrPinMap src none := by
  obtain ⟨pinList, termList, threaded⟩ := inv.threaded
  have pinHead : st.pinHead src = cnet.pins := by simp [pinHead,hnet]
  have list := threaded.pins.chain src
  rw [pinHead] at list
  obtain ⟨st₁, run, frame, drvrs, nets, next, prev, data⟩ := forgetNet_spec list (fun p mem => threaded.pinListLive mem)
    (threaded.pinList_short inv.refs src)
  have noTermOn : ∀ t, st.termOwner t ≠ some src := fun t owned => by
    have empty := threaded.terms.chain src
    rw [show st.termHead src = none by simp [termHead, hnet, noTerms]] at empty
    have mem := (threaded.terms.owner src t).2 owned
    rw [empty.unique (show IsList _ none [] from rfl)] at mem
    cases mem
  have pinOwner₁ : st₁.pinOwner = redirect src none st.pinOwner := threaded.pinOwner_redirect data
  have termOwner₁ : st₁.termOwner = st.termOwner := by funext t; simp [termOwner,termData,frame.terms]
  let st' : ConcreteNetwork := { st₁ with netDrvrPinMap := Function.update st₁.netDrvrPinMap src none }.setNet src none
  have same : SameRefs st st' := (frame.sameRefs_of_list data).trans ⟨rfl, rfl, rfl, rfl, rfl, rfl⟩
  have live : ∀ n, st'.netLive n = if n = src then false else st.netLive n := fun n => by
    have inner : ({ st₁ with netDrvrPinMap := Function.update st₁.netDrvrPinMap src none } : ConcreteNetwork).netLive =
      st.netLive := frame.live
    simp only [st',netLive_setNet,inner]
    rfl
  have pinOwner' : st'.pinOwner = redirect src none st.pinOwner := pinOwner₁
  have termOwner' : st'.termOwner = st.termOwner := termOwner₁
  refine ⟨st', ?_, ⟨⟨Function.update pinList src [], termList, ?_, ?_, ?_, fun p n owned =>
    ⟨pinLive_of_owner owned, ?_⟩,
    fun t n owned => ⟨termLive_of_owner owned, ?_⟩⟩, inv.refs.congr same fun n isLive => ?_⟩, fun stored =>
      stored.congr same, ?_, ?_⟩
  · simp [ConcreteNetwork.deleteNet,hnet,run,st']
  · have pinNext' : st'.pinNext = st.pinNext := next
    rw [pinNext']
    refine threaded.pins.clear (fun n => ?_) fun p => congrFun pinOwner' p
    have inner : ({ st₁ with netDrvrPinMap := Function.update st₁.netDrvrPinMap src none } : ConcreteNetwork).pinHead =
      st.pinHead := by
      funext m
      simp [ConcreteNetwork.pinHead,nets]
    simp only [st',pinHead_setNet,inner]
    rfl
  · have pinPrev' : st'.pinPrev = st.pinPrev := prev
    rw [pinPrev']
    exact threaded.back.clear src
  · have termHead' : st'.termHead = st.termHead := by
      funext n
      have inner : ({ st₁ with
        netDrvrPinMap := Function.update st₁.netDrvrPinMap src none } : ConcreteNetwork).termHead = st.termHead :=
        frame.termHead
      simp only [st',termHead_setNet,inner]
      by_cases eq : n = src
      · simp [eq,termHead,hnet,noTerms]
      · simp [eq]
    have termNext' : st'.termNext = st.termNext := by
      funext t
      have inner : st'.termNext t = st₁.termNext t := rfl
      rw [inner,termNext,frame.terms]
      rfl
    rw [termHead',termNext',termOwner']
    exact threaded.terms
  · rw [pinOwner',redirect] at owned
    by_cases eq : st.pinOwner p = some src
    · simp [eq] at owned
    · rw [if_neg eq] at owned
      have ne : n ≠ src := fun here => eq (here ▸ owned)
      rw [live,if_neg ne]
      exact (threaded.live p n owned).2
  · rw [termOwner'] at owned
    have ne : n ≠ src := fun here => noTermOn t (here ▸ owned)
    rw [live,if_neg ne]
    exact (threaded.termLive t n owned).2
  · rw [live] at isLive
    by_cases eq : n = src
    · simp [eq] at isLive
    · simpa [eq] using isLive
  · rw [same.netlist frame.top,pinOwner',termOwner']
    rfl
  · change Function.update st₁.netDrvrPinMap src none = _
    rw [drvrs]

end Nets

end GTPower.ConcreteNetwork
