import GTPower.NetlistEdits

/-! The edits keep the connectivity lists of a netlist consistent: every pin and every terminal is in the list of its
net and in no other, a terminal and its pin refer to each other, and every pin is in the slot of its port. -/
namespace GTPower.ConcreteNetwork

open Linked

variable {st st' : ConcreteNetwork} {net pin term inst : ℕ} {port : ConcretePort} {cell : ConcreteCell}

section ReplaceCell

def newIndex (st : ConcreteNetwork) (cell : ConcreteCell) (p : ℕ) : Option ℕ :=
  (st.pinPort p).bind fun port => (cell.findPort port.name).bind (·.pinIndex)

/-- The new cell has no more port bits than the instance has slots, and every pin of the instance finds a slot of its
own in it. -/
def Replaceable (st : ConcreteNetwork) (inst : ℕ) (cell : ConcreteCell) : Prop :=
  ∀ cinst, st.instances inst = some cinst → cell.portBitCount ≤ cinst.pins.length ∧
    (∀ k p, cinst.pins[k]? = some (some p) → k < cell.portBitCount ∧ ∃ j, st.newIndex cell p = some j ∧
      j < cell.portBitCount) ∧
    ∀ k k' p p' j : ℕ, cinst.pins[k]? = some (some p) → cinst.pins[k']? = some (some p') → st.newIndex cell p = some j →
      st.newIndex cell p' = some j → p = p'

/-- The pins of `done` have moved to their new slots. -/
structure Replaced (st cur : ConcreteNetwork) (cell : ConcreteCell) (done : List ℕ) (rpins : List (Option ℕ)) :
    Prop where
  data : ∀ p, cur.pinData p =
    if p ∈ done then (st.pinData p).map fun c => { c with port := (cell.findPort c.port.name).getD c.port }
      else st.pinData p
  next : cur.pinNext = st.pinNext
  prev : cur.pinPrev = st.pinPrev
  same : cur.terms = st.terms ∧ cur.nets = st.nets ∧ cur.instances = st.instances ∧ cur.topInstance = st.topInstance
  objectId : st.objectId ≤ cur.objectId
  slots : ∀ j p, rpins[j]? = some (some p) ↔ p ∈ done ∧ st.newIndex cell p = some j

theorem Replaced.slot {cur : ConcreteNetwork} {done : List ℕ} {rpins : List (Option ℕ)} {j : ℕ}
    (replaced : Replaced st cur cell done rpins)
    (fresh : pin ∉ done) (target : st.newIndex cell pin = some j) (inside : j < rpins.length)
    (free : ∀ q ∈ done, st.newIndex cell q ≠ some j) :
    ∃ cur', replacePin cell (cur, rpins) (some pin) = some (cur', rpins.set j (some pin)) ∧
      Replaced st cur' cell (pin :: done) (rpins.set j (some pin)) := by
  obtain ⟨port, hport, target'⟩ := Option.bind_eq_some_iff.1 target
  obtain ⟨cport, found, place⟩ := Option.bind_eq_some_iff.1 target'
  obtain ⟨c, hc, rfl⟩ := Option.map_eq_some_iff.1 hport
  have data : cur.pinData pin = some c := by rw [replaced.data,if_neg fresh,hc]
  obtain ⟨cpin, hpin, rfl⟩ := Option.map_eq_some_iff.1 data
  have found' : cell.findPort cpin.port.name = some cport := found
  refine ⟨{ cur.setPin pin (some { cpin with port := cport, id := cur.objectId }) with objectId := cur.objectId + 1 },
    ?_,
    fun p => ?_, ?_, ?_, replaced.same, Nat.le_succ_of_le replaced.objectId, fun i p => ?_⟩
  · simp [replacePin,hpin,found',place,inside]
  · have inner : ({ cur.setPin pin (some { cpin with port := cport, id := cur.objectId }) with
        objectId := cur.objectId + 1 } : ConcreteNetwork).pinData p =
          (cur.setPin pin (some { cpin with port := cport, id := cur.objectId })).pinData p := rfl
    rw [inner,pinData_setPin]
    by_cases eq : p = pin
    · have port : cpin.unlinked.port = cpin.port := rfl
      simp only [eq,if_true,Option.map_some,List.mem_cons,true_or,hc,port,found',Option.getD_some]
      rfl
    · simp [eq,replaced.data]
  · rw [← replaced.next]
    funext p
    have inner : ({ cur.setPin pin (some { cpin with port := cport, id := cur.objectId }) with
        objectId := cur.objectId + 1 } : ConcreteNetwork).pinNext p =
          (cur.setPin pin (some { cpin with port := cport, id := cur.objectId })).pinNext p := rfl
    rw [inner,pinNext_setPin]
    by_cases eq : p = pin <;> simp [eq,pinNext,hpin]
  · rw [← replaced.prev]
    funext p
    have inner : ({ cur.setPin pin (some { cpin with port := cport, id := cur.objectId }) with
        objectId := cur.objectId + 1 } : ConcreteNetwork).pinPrev p =
          (cur.setPin pin (some { cpin with port := cport, id := cur.objectId })).pinPrev p := rfl
    rw [inner,pinPrev_setPin]
    by_cases eq : p = pin <;> simp [eq,pinPrev,hpin]
  · by_cases here : i = j
    · subst here
      simp only [List.getElem?_set_self inside,Option.some.injEq,List.mem_cons]
      constructor
      · rintro rfl
        exact ⟨.inl rfl, target⟩
      · rintro ⟨rfl | mem, target'⟩
        · rfl
        · exact absurd target' (free p mem)
    · rw [List.getElem?_set_ne (Ne.symm here),replaced.slots,List.mem_cons]
      constructor
      · rintro ⟨mem, target'⟩
        exact ⟨.inr mem, target'⟩
      · rintro ⟨rfl | mem, target'⟩
        · exact absurd (Option.some.inj (target'.symm.trans target)) here
        · exact ⟨mem, target'⟩

theorem Replaced.loop (slots : List (Option ℕ)) {cur : ConcreteNetwork} {done : List ℕ} {rpins : List (Option ℕ)}
    (replaced : Replaced st cur cell done rpins) (distinct : (done.reverse ++ slots.filterMap id).Nodup)
    (target : ∀ p ∈ slots.filterMap id, ∃ j, st.newIndex cell p = some j ∧ j < rpins.length)
    (apart : ∀ p ∈ done.reverse ++ slots.filterMap id, ∀ q ∈ done.reverse ++ slots.filterMap id, ∀ j,
      st.newIndex cell p = some j → st.newIndex cell q = some j → p = q) :
    ∃ cur' rpins' done', slots.foldlM (replacePin cell) (cur, rpins) = some (cur', rpins') ∧
    Replaced st cur' cell done' rpins' ∧
      rpins'.length = rpins.length ∧ ∀ p, p ∈ done' ↔ p ∈ done ∨ p ∈ slots.filterMap id := by
  induction slots generalizing cur done rpins with
  | nil => exact ⟨cur, rpins, done, rfl, replaced, rfl, by simp⟩
  | cons slot slots ih =>
    cases slot with
    | none =>
      obtain ⟨cur', rpins', done', run, replaced', length, mem⟩ :=
        ih replaced (by simpa using distinct) (by simpa using target)
        (by simpa using apart)
      exact ⟨cur', rpins', done', by simpa [replacePin] using run, replaced', length, by simpa using mem⟩
    | some pin =>
      have whole : done.reverse ++ (some pin :: slots).filterMap id = (pin :: done).reverse ++ slots.filterMap id := by
        simp
      rw [whole] at distinct apart
      have fresh : pin ∉ done := by
        have front := (List.nodup_append.1 distinct).1
        simp only [List.reverse_cons] at front
        intro mem
        exact (List.nodup_append.1 front).2.2 pin (by simpa using mem) pin (by simp) rfl
      obtain ⟨j, here, inside⟩ := target pin (by simp)
      have free : ∀ q ∈ done, st.newIndex cell q ≠ some j := fun q mem eq => by
        have same := apart q (by simp [mem]) pin (by simp) j eq here
        exact fresh (same ▸ mem)
      obtain ⟨cur₁, run₁, replaced₁⟩ := replaced.slot fresh here inside free
      obtain ⟨cur', rpins', done', run, replaced', length, mem⟩ := ih replaced₁ distinct
        (fun p inner => by simpa using target p (List.mem_cons_of_mem pin inner)) apart
      refine ⟨cur', rpins', done', ?_, replaced', by simpa using length, fun p => ?_⟩
      · rw [List.foldlM_cons,run₁]
        exact run
      · rw [mem,List.mem_cons]
        simp only [List.filterMap_cons,id_eq,List.mem_cons]
        tauto

theorem mem_filledSlots {pins : List (Option ℕ)} (count : ℕ)
    (target : ∀ (k p : ℕ), pins[k]? = some (some p) → k < count) (p : ℕ) :
    p ∈ (pins.take count).filterMap id ↔ ∃ k : ℕ, pins[k]? = some (some p) := by
  rw [List.mem_filterMap]
  simp only [id_eq,exists_eq_right]
  rw [List.mem_iff_getElem?]
  simp only [List.getElem?_take]
  constructor
  · rintro ⟨k, here⟩
    split at here
    · exact ⟨k, here⟩
    · cases here
  · rintro ⟨k, here⟩
    exact ⟨k, by rw [if_pos (target k p here)]; exact here⟩

theorem Refs.nodup_filledSlots (refs : Refs st) {cinst : ConcreteInstance} (hinst : st.instances inst = some cinst)
    (count : ℕ) :
    ((cinst.pins.take count).filterMap id).Nodup := by
  rw [List.Nodup,List.pairwise_filterMap,List.pairwise_iff_getElem]
  rintro k k' hk hk' less p here p' here' rfl
  simp only [List.getElem_take,id_eq] at here here'
  have inside : k < cinst.pins.length := lt_of_lt_of_le hk (List.length_take_le' ..)
  have inside' : k' < cinst.pins.length := lt_of_lt_of_le hk' (List.length_take_le' ..)
  have place := (refs.slot inst cinst k p hinst (by rw [List.getElem?_eq_getElem inside]; exact congrArg some here)).2
  have place' := (refs.slot inst cinst k' p hinst (by
    rw [List.getElem?_eq_getElem inside']; exact congrArg some here')).2
  exact absurd (Option.some.inj (place.symm.trans place')) (Nat.ne_of_lt less)

theorem Replaced.sameLists {cur : ConcreteNetwork} {done : List ℕ} {rpins : List (Option ℕ)}
    (replaced : Replaced st cur cell done rpins) (inst : ℕ) (cinst : ConcreteInstance) :
    (cur.setInstance inst cinst).pinHead = st.pinHead ∧ (cur.setInstance inst cinst).termHead = st.termHead ∧
      (cur.setInstance inst cinst).netLive = st.netLive ∧ (cur.setInstance inst cinst).terms = st.terms := by
  obtain ⟨terms, nets, -, -⟩ := replaced.same
  refine ⟨?_, ?_, ?_, terms⟩
  · funext n
    have inner : (cur.setInstance inst cinst).pinHead n = cur.pinHead n := rfl
    rw [inner,pinHead,nets]
    rfl
  · funext n
    have inner : (cur.setInstance inst cinst).termHead n = cur.termHead n := rfl
    rw [inner,termHead,nets]
    rfl
  · funext n
    have inner : (cur.setInstance inst cinst).netLive n = cur.netLive n := rfl
    rw [inner,netLive,nets]
    rfl

theorem Replaced.samePins {cur : ConcreteNetwork} {done : List ℕ} {rpins : List (Option ℕ)}
    (replaced : Replaced st cur cell done rpins) (inst : ℕ) (cinst : ConcreteInstance) :
    (cur.setInstance inst cinst).pinOwner = st.pinOwner ∧ (cur.setInstance inst cinst).pinTerm = st.pinTerm ∧
      (cur.setInstance inst cinst).pinInst = st.pinInst := by
  have data : (cur.setInstance inst cinst).pinData = cur.pinData := rfl
  refine ⟨?_, ?_, ?_⟩
  · funext p
    rw [ConcreteNetwork.pinOwner,data,replaced.data,ConcreteNetwork.pinOwner]
    split <;> cases st.pinData p <;> rfl
  · funext p
    rw [ConcreteNetwork.pinTerm,data,replaced.data,ConcreteNetwork.pinTerm]
    split <;> cases st.pinData p <;> rfl
  · funext p
    rw [ConcreteNetwork.pinInst,data,replaced.data,ConcreteNetwork.pinInst]
    split <;> cases st.pinData p <;> rfl

theorem Replaced.sameTerms {cur : ConcreteNetwork} {done : List ℕ} {rpins : List (Option ℕ)}
    (replaced : Replaced st cur cell done rpins) (inst : ℕ) (cinst : ConcreteInstance) :
    (cur.setInstance inst cinst).termData = st.termData ∧ (cur.setInstance inst cinst).termNext = st.termNext ∧
      (cur.setInstance inst cinst).termOwner = st.termOwner ∧ (cur.setInstance inst cinst).termPin = st.termPin := by
  obtain ⟨-, -, -, terms⟩ := replaced.sameLists inst cinst
  have termData' : (cur.setInstance inst cinst).termData = st.termData := by
    funext t
    rw [termData,terms]
    rfl
  refine ⟨termData', ?_, ?_, ?_⟩
  · funext t
    rw [termNext,terms]
    rfl
  · funext t
    rw [ConcreteNetwork.termOwner,termData']
    rfl
  · funext t
    rw [ConcreteNetwork.termPin,termData']
    rfl

theorem Replaced.pinIndex_of_mem {cur : ConcreteNetwork} {done : List ℕ} {rpins : List (Option ℕ)} {p j : ℕ}
    (replaced : Replaced st cur cell done rpins) (inner : p ∈ done) (found : st.newIndex cell p = some j) (inst : ℕ)
    (cinst : ConcreteInstance) : (cur.setInstance inst cinst).pinIndex p = some j := by
  have data : (cur.setInstance inst cinst).pinData = cur.pinData := rfl
  obtain ⟨port, hport, found'⟩ := Option.bind_eq_some_iff.1 found
  obtain ⟨cport, hcport, place⟩ := Option.bind_eq_some_iff.1 found'
  obtain ⟨c, hc, rfl⟩ := Option.map_eq_some_iff.1 hport
  simp [pinIndex,pinPort,data,replaced.data,inner,hc,hcport,place]

theorem Replaced.pinIndex_of_not_mem {cur : ConcreteNetwork} {done : List ℕ} {rpins : List (Option ℕ)} {p : ℕ}
    (replaced : Replaced st cur cell done rpins) (outer : p ∉ done) (inst : ℕ) (cinst : ConcreteInstance) :
    (cur.setInstance inst cinst).pinIndex p = st.pinIndex p := by
  have data : (cur.setInstance inst cinst).pinData = cur.pinData := rfl
  simp [pinIndex,pinPort,data,replaced.data,outer]

theorem Refs.replaced (refs : Refs st) {cinst : ConcreteInstance} (hinst : st.instances inst = some cinst)
    (target : ∀ k p, cinst.pins[k]? = some (some p) → k < cell.portBitCount ∧ ∃ j, st.newIndex cell p = some j ∧
      j < cell.portBitCount)
    (apart : ∀ k k' p p' j : ℕ, cinst.pins[k]? = some (some p) → cinst.pins[k']? = some (some p') →
      st.newIndex cell p = some j → st.newIndex cell p' = some j → p = p') :
    ∃ cur rpins done, (cinst.pins.take cell.portBitCount).foldlM (replacePin cell) (st,
    List.replicate cell.portBitCount none) =
        some (cur, rpins) ∧ Replaced st cur cell done rpins ∧ rpins.length = cell.portBitCount ∧
      ∀ p, p ∈ done ↔ ∃ k : ℕ, cinst.pins[k]? = some (some p) := by
  have held := mem_filledSlots cell.portBitCount fun k p here => (target k p here).1
  have distinct := refs.nodup_filledSlots hinst cell.portBitCount
  have start : Replaced st st cell [] (List.replicate cell.portBitCount none) :=
    ⟨by simp, rfl, rfl, ⟨rfl, rfl, rfl, rfl⟩, le_refl _, by simp [List.getElem?_replicate]⟩
  obtain ⟨cur, rpins, done, run, replaced, length, mem⟩ :=
    start.loop (cinst.pins.take cell.portBitCount) (by simpa using distinct)
    (fun p inner => by
      obtain ⟨k, here⟩ := (held p).1 inner
      simpa using (target k p here).2)
    fun p inner q inner' j => by
      obtain ⟨k, here⟩ := (held p).1 (by simpa using inner)
      obtain ⟨k', here'⟩ := (held q).1 (by simpa using inner')
      exact apart k k' p q j here here'
  refine ⟨cur, rpins, done, run, replaced, by rw [length,List.length_replicate], fun p => ?_⟩
  rw [mem]
  simpa using held p

theorem Inv.replaceCell (inv : Inv st) (stored : Stored st) {cinst : ConcreteInstance}
    (hinst : st.instances inst = some cinst)
    (replaceable : Replaceable st inst cell) : ∃ st', st.replaceCell inst cell = some st' ∧ Inv st' ∧ Stored st' := by
  obtain ⟨short, target, apart⟩ := replaceable cinst hinst
  obtain ⟨cur, rpins, done, run, replaced, length, isDone⟩ := inv.refs.replaced hinst target apart
  have onInst : ∀ p ∈ done, st.pinInst p = some inst := fun p inner => by
    obtain ⟨k, here⟩ := (isDone p).1 inner
    exact (inv.refs.slot inst cinst k p hinst here).1
  let st' := cur.setInstance inst ⟨cell, rpins⟩
  have instances' : ∀ i, st'.instances i = if i = inst then some ⟨cell, rpins⟩ else st.instances i := fun i => by
    simp only [st',setInstance,Function.update_apply,replaced.same.2.2.1]
  obtain ⟨pinOwner, pinTerm, pinInst⟩ := replaced.samePins inst ⟨cell, rpins⟩
  obtain ⟨pinHead', termHead', netLive', terms'⟩ := replaced.sameLists inst ⟨cell, rpins⟩
  obtain ⟨termData', termNext', termOwner, termPin⟩ := replaced.sameTerms inst ⟨cell, rpins⟩
  have moved : ∀ p ∈ done, ∃ j : ℕ, st.newIndex cell p = some j ∧ st'.pinIndex p = some j ∧ j < rpins.length :=
    fun p inner => by
    obtain ⟨k, here⟩ := (isDone p).1 inner
    obtain ⟨_, j, found, inside⟩ := target k p here
    exact ⟨j, found, replaced.pinIndex_of_mem inner found inst _, by rw [length]; exact inside⟩
  have kept : ∀ p, p ∉ done → st'.pinIndex p = st.pinIndex p := fun p outer => replaced.pinIndex_of_not_mem outer inst _
  have place : ∀ p i, st.pinInst p = some i → ∃ c k, st'.instances i = some c ∧ st'.pinIndex p = some k ∧
    c.pins[k]? = some (some p) := by
    intro p i here
    obtain ⟨c, k, hc, there, slot⟩ := stored p i here
    by_cases eq : i = inst
    · subst eq
      obtain rfl := Option.some.inj (hinst.symm.trans hc)
      have inner := (isDone p).2 ⟨k, slot⟩
      obtain ⟨j, found, there', _⟩ := moved p inner
      exact ⟨⟨cell, rpins⟩, j, by simp [instances'], there', (replaced.slots j p).2 ⟨inner, found⟩⟩
    · have outer : p ∉ done := fun inner => eq (Option.some.inj (here.symm.trans (onInst p inner)))
      exact ⟨c, k, by simp [instances',eq,hc], by rw [kept p outer]; exact there, slot⟩
  obtain ⟨pinList, termList, threaded⟩ := inv.threaded
  refine ⟨st', ?_, ⟨⟨pinList, termList, ?_⟩, ⟨fun t p => ?_, fun p i here => ?_, fun i c k p here slot =>
    ?_, fun a beyond => ?_⟩⟩,
    fun p i here => place p i (pinInst ▸ here)⟩
  · simp [ConcreteNetwork.replaceCell,hinst,short,run,st']
  · rw [pinOwner,termOwner]
    refine threaded.congr pinHead' termHead' (fun n live => ?_) (fun p n owned =>
      ⟨congrFun replaced.next p, congrFun replaced.prev p, ?_⟩)
      fun t n owned => ⟨congrFun termNext' t, ?_⟩
    · rw [netLive']
      exact live
    · exact pinLive_of_owner (pinOwner ▸ owned)
    · rw [terms']
      exact (threaded.termLive t n owned).1
  · rw [pinTerm,termPin]
    exact inv.refs.refers t p
  · obtain ⟨c, k, hc, there, slot⟩ := place p i (pinInst ▸ here)
    exact ⟨c, k, hc, there, (List.getElem?_eq_some_iff.1 slot).1⟩
  · rw [pinInst]
    rw [instances'] at here
    by_cases eq : i = inst
    · simp only [eq,if_true,Option.some.injEq] at here
      subst here eq
      obtain ⟨inner, found⟩ := (replaced.slots k p).1 slot
      obtain ⟨j, found', there, _⟩ := moved p inner
      obtain rfl := Option.some.inj (found.symm.trans found')
      exact ⟨onInst p inner, there⟩
    · simp only [eq,if_false] at here
      have old := inv.refs.slot i c k p here slot
      have outer : p ∉ done := fun inner => eq (Option.some.inj (old.1.symm.trans (onInst p inner)))
      rw [kept p outer]
      exact old
  · have beyond' : st.objectId ≤ a := le_trans replaced.objectId beyond
    obtain ⟨noPin, noTerm, noNet, noInst⟩ := inv.refs.fresh a beyond'
    have other : a ≠ inst := fun eq => by simp [eq,hinst] at noInst
    have data : st'.pinData = cur.pinData := rfl
    refine ⟨?_, ?_, ?_, by simpa [instances',other] using noInst⟩
    · rw [data,replaced.data,noPin]
      split <;> rfl
    · rw [termData']
      exact noTerm
    · rw [netLive']
      exact noNet

end ReplaceCell

section Objects

theorem Inv.makeInstance (inv : Inv st) (cell : ConcreteCell) :
    Inv (st.makeInstance cell) ∧ (Stored st → Stored (st.makeInstance cell)) ∧
      (st.makeInstance cell).netlist = st.netlist ∧ (st.makeInstance cell).netDrvrPinMap = st.netDrvrPinMap := by
  obtain ⟨pinList, termList, threaded⟩ := inv.threaded
  obtain ⟨_, _, _, noInst⟩ := inv.refs.fresh st.objectId (le_refl _)
  have instances : ∀ i, (st.makeInstance cell).instances i =
      if i = st.objectId then some ⟨cell, List.replicate cell.portBitCount none⟩ else st.instances i := fun i => by
    simp [ConcreteNetwork.makeInstance,setInstance,Function.update_apply]
  have old : ∀ i c, st.instances i = some c → (st.makeInstance cell).instances i = some c := fun i c here => by
    have ne : i ≠ st.objectId := fun eq => by simp [eq,noInst] at here
    simp [instances,ne,here]
  refine ⟨⟨⟨pinList, termList, ?_⟩, ⟨inv.refs.refers, fun p i here => ?_, fun i c k p here slot =>
    ?_, fun a beyond => ?_⟩⟩,
    fun stored p i here => ?_, ?_, rfl⟩
  · exact threaded.congr rfl rfl (fun _ live => live) (fun p n owned => ⟨rfl, rfl, (threaded.live p n owned).1⟩)
      fun t n owned => ⟨rfl, (threaded.termLive t n owned).1⟩
  · obtain ⟨c, k, hc, place, short⟩ := inv.refs.room p i here
    exact ⟨c, k, old i c hc, place, short⟩
  · rw [instances] at here
    by_cases eq : i = st.objectId
    · simp only [eq,if_true,Option.some.injEq] at here
      subst here
      simp [List.getElem?_replicate] at slot
    · exact inv.refs.slot i c k p (by simpa [eq] using here) slot
  · have beyond' : st.objectId + 1 ≤ a := beyond
    obtain ⟨noPin, noTerm, noNet, noInst⟩ := inv.refs.fresh a (by omega)
    have ne : a ≠ st.objectId := by omega
    exact ⟨noPin, noTerm, noNet, by simpa [instances,ne] using noInst⟩
  · obtain ⟨c, k, hc, place, slot⟩ := stored p i here
    exact ⟨c, k, old i c hc, place, slot⟩
  · have driver : (st.makeInstance cell).isDriver = st.isDriver := by
      funext p
      simp only [isDriver,drives]
      have pins : (st.makeInstance cell).pins = st.pins := rfl
      have top : (st.makeInstance cell).topInstance = st.topInstance := rfl
      rw [pins,top]
      cases hpin : st.pins p with
      | none => rfl
      | some cpin =>
        obtain ⟨c, _, hc, _⟩ := inv.refs.room p cpin.inst (pinInst_of_pins hpin)
        simp [old cpin.inst c hc,hc]
    rw [netlist,driver]
    rfl

theorem Inv.makeNet (inv : Inv st) :
    Inv st.makeNet ∧ (Stored st → Stored st.makeNet) ∧ st.makeNet.netlist = st.netlist ∧
    st.makeNet.netDrvrPinMap = st.netDrvrPinMap := by
  obtain ⟨pinList, termList, threaded⟩ := inv.threaded
  obtain ⟨_, _, noNet, _⟩ := inv.refs.fresh st.objectId (le_refl _)
  have gone : st.nets st.objectId = none := by simpa [netLive] using noNet
  have pinHead : st.makeNet.pinHead = st.pinHead := by
    funext n
    have same : st.makeNet.pinHead n = (st.setNet st.objectId (some ⟨none, none, none⟩)).pinHead n := rfl
    rw [same,pinHead_setNet]
    by_cases eq : n = st.objectId <;> simp [eq,ConcreteNetwork.pinHead,gone]
  have termHead : st.makeNet.termHead = st.termHead := by
    funext n
    have same : st.makeNet.termHead n = (st.setNet st.objectId (some ⟨none, none, none⟩)).termHead n := rfl
    rw [same,termHead_setNet]
    by_cases eq : n = st.objectId <;> simp [eq,ConcreteNetwork.termHead,gone]
  have live : ∀ n, st.makeNet.netLive n = if n = st.objectId then true else st.netLive n := fun n => by
    have same : st.makeNet.netLive n = (st.setNet st.objectId (some ⟨none, none, none⟩)).netLive n := rfl
    rw [same,netLive_setNet]
    rfl
  refine ⟨⟨⟨pinList, termList, ?_⟩, ⟨inv.refs.refers, inv.refs.room, inv.refs.slot, fun a beyond => ?_⟩⟩, fun stored =>
    stored, rfl, rfl⟩
  · refine threaded.congr pinHead termHead (fun n isLive => ?_) (fun p n owned =>
      ⟨rfl, rfl, (threaded.live p n owned).1⟩)
      fun t n owned => ⟨rfl, (threaded.termLive t n owned).1⟩
    rw [live]
    split
    · rfl
    · exact isLive
  · have beyond' : st.objectId + 1 ≤ a := beyond
    obtain ⟨noPin, noTerm, noNet, noInst⟩ := inv.refs.fresh a (by omega)
    have ne : a ≠ st.objectId := by omega
    exact ⟨noPin, noTerm, by rw [live,if_neg ne]; exact noNet, noInst⟩

theorem inv_initial (top : Option ConcreteCell) : Inv (initial top) ∧ Stored (initial top) := by
  have noPin : ∀ p, (initial top).pinData p = none := by cases top <;> exact fun _ => rfl
  have noTerm : ∀ t, (initial top).termData t = none := by cases top <;> exact fun _ => rfl
  have noPinHead : ∀ n, (initial top).pinHead n = none := by cases top <;> exact fun _ => rfl
  have noTermHead : ∀ n, (initial top).termHead n = none := by cases top <;> exact fun _ => rfl
  refine ⟨⟨⟨fun _ => [], fun _ => [], ⟨noPinHead, ?_⟩, fun _ _ => trivial, ⟨noTermHead, ?_⟩, ?_, ?_⟩,
    ⟨?_, ?_, ?_, ?_⟩⟩, ?_⟩
  · simp [pinOwner,noPin]
  · simp [termOwner,noTerm]
  · simp [pinOwner,noPin]
  · simp [termOwner,noTerm]
  · simp [termPin,pinTerm,noPin,noTerm]
  · simp [pinInst,noPin]
  · intro i c k p here slot
    cases top with
    | none => cases here
    | some cell =>
      have instances : (initial (some cell)).instances i = if i =
        0 then some ⟨cell, List.replicate cell.portBitCount none⟩ else none := by
        simp [initial,setInstance,Function.update_apply]
      rw [instances] at here
      split at here
      · cases here
        simp [List.getElem?_replicate] at slot
      · cases here
  · intro a beyond
    have pos : a ≠ 0 := by
      have one : (initial top).objectId = 1 := by cases top <;> rfl
      omega
    refine ⟨noPin a, noTerm a, by cases top <;> rfl, ?_⟩
    cases top with
    | none => rfl
    | some cell => simp [initial,setInstance,pos]
  · intro p i here
    simp [pinInst,noPin] at here

end Objects

/-- The connectivity lists say what the objects say: which pins and terminals are on a net, which terminal a pin has,
and in which slot of its instance a pin is. Lists and references hold live objects only. -/
structure Consistent (st : ConcreteNetwork) : Prop where
  pins : ∃ pinList : ℕ → List ℕ, ∀ n cnet, st.nets n = some cnet →
    IsList st.pinNext cnet.pins (pinList n) ∧ BackFrom st.pinPrev none (pinList n) ∧
      (∀ p ∈ pinList n, (st.pins p).isSome) ∧
      ∀ p cpin, st.pins p = some cpin → (pinList n).count p = if cpin.net = some n then 1 else 0
  terms : ∃ termList : ℕ → List ℕ, ∀ n cnet, st.nets n = some cnet →
    IsList st.termNext cnet.terms (termList n) ∧ (∀ t ∈ termList n, (st.terms t).isSome) ∧
      ∀ t cterm, st.terms t = some cterm → (termList n).count t = if cterm.net = some n then 1 else 0
  netLive : (∀ p cpin n, st.pins p = some cpin → cpin.net = some n → (st.nets n).isSome) ∧
    ∀ t cterm n, st.terms t = some cterm → cterm.net = some n → (st.nets n).isSome
  refers : ∀ t cterm, st.terms t = some cterm → ∃ cpin, st.pins cterm.pin = some cpin ∧ cpin.term = some t
  stored : ∀ p cpin, st.pins p = some cpin → ∃ cinst k, st.instances cpin.inst = some cinst ∧
    cpin.port.pinIndex = some k ∧
    cinst.pins[k]? = some (some p)
  slots : ∀ (i : ℕ) (cinst : ConcreteInstance) (k p : ℕ), st.instances i = some cinst → cinst.pins[k]? = some (some p) →
    (st.pins p).isSome

theorem Inv.consistent (inv : Inv st) (stored : Stored st) : Consistent st := by
  obtain ⟨pinList, termList, threaded⟩ := inv.threaded
  refine ⟨⟨pinList, fun n cnet hnet => ⟨?_, threaded.back n trivial, fun p mem => threaded.pinListLive mem,
    fun p cpin hpin => ?_⟩⟩,
    ⟨termList, fun n cnet hnet => ⟨?_, fun t mem => (threaded.termLive t n ((threaded.terms.owner n t).1 mem)).1,
      fun t cterm hterm => ?_⟩⟩,
    ⟨fun p cpin n hpin on => ?_, fun t cterm n hterm on => ?_⟩, fun t cterm hterm => ?_, fun p cpin hpin => ?_,
    fun i cinst k p hinst slot => ?_⟩
  · have list := threaded.pins.chain n
    rwa [show st.pinHead n = cnet.pins by simp [pinHead, hnet]] at list
  · rw [threaded.pins.count,pinOwner_of_pins hpin]
  · have list := threaded.terms.chain n
    rwa [show st.termHead n = cnet.terms by simp [termHead, hnet]] at list
  · rw [threaded.terms.count,show st.termOwner t = cterm.net by
      simp [termOwner, termData, hterm, ConcreteTerm.unlinked]]
  · exact (threaded.live p n ((pinOwner_of_pins hpin).trans on)).2
  · have owner : st.termOwner t = cterm.net := by simp [termOwner,termData,hterm,ConcreteTerm.unlinked]
    exact (threaded.termLive t n (owner.trans on)).2
  · have onPin : st.termPin t = some cterm.pin := by simp [termPin,termData,hterm,ConcreteTerm.unlinked]
    have term := (inv.refs.refers t cterm.pin).1 onPin
    cases hpin : st.pins cterm.pin with
    | none => simp [pinTerm,pinData,hpin] at term
    | some cpin => exact ⟨cpin, rfl, (pinTerm_of_pins hpin).symm.trans term⟩
  · obtain ⟨cinst, k, hinst, place, slot⟩ := stored p cpin.inst (pinInst_of_pins hpin)
    exact ⟨cinst, k, hinst, by simpa [pinIndex,pinPort,pinData,hpin,ConcretePin.unlinked] using place, slot⟩
  · have there := (inv.refs.slot i cinst k p hinst slot).1
    rw [← pinData_isSome]
    cases here : st.pinData p <;> simp [pinInst,here] at there ⊢

section Run

/-- The objects of a call exist, a merge is of two nets, ports are single bits, and only a top level port is connected
to nothing. -/
def Valid (st : ConcreteNetwork) : Edit → Prop
  | .makeInstance _ => True
  | .makeNet => True
  | .makePin inst port net => (st.instances inst).isSome ∧ port.pinIndex.isSome ∧ ∀ n, net = some n → st.netLive n
  | .makeTerm pin net => (st.pins pin).isSome ∧ ∀ n, net = some n → st.netLive n
  | .connect inst port net => (st.instances inst).isSome ∧ port.pinIndex.isSome ∧ (∀ n, net = some n → st.netLive n) ∧
      (st.topInstance ≠ some inst → net.isSome)
  | .disconnectPin pin => (st.pins pin).isSome
  | .deletePin pin => (st.pins pin).isSome
  | .mergeInto net intoNet => intoNet ≠ net ∧ st.netLive net ∧ st.netLive intoNet
  | .deleteNet net => st.netLive net
  | .replaceCell inst _ => (st.instances inst).isSome

/-- No terminal loses its pin or its net, and no pin its slot. -/
def ListsMeet (st : ConcreteNetwork) : Edit → Prop
  | .makePin inst port _ => ∀ cinst, st.instances inst = some cinst → cinst.findPin port = none
  | .makeTerm pin _ => st.pinTerm pin = none
  | .connect inst port _ => st.topInstance = some inst →
      ∀ cinst p, st.instances inst = some cinst → cinst.findPin port = some p → st.pinTerm p = none
  | .deletePin pin => st.pinTerm pin = none
  | .deleteNet net => st.termHead net = none
  | .replaceCell inst cell => Replaceable st inst cell
  | _ => True

/-- Every call of a run meets `ok` in the state it is made in. -/
def Along {Call : Type} (step : ConcreteNetwork → Call → Option ConcreteNetwork) (ok : ConcreteNetwork → Call → Prop) :
    ConcreteNetwork → List Call → Prop
  | _, [] => True
  | st, call :: calls => ok st call ∧ ∀ st', step st call = some st' → Along step ok st' calls

/-- What each call that meets `ok` keeps is kept by a run, and the run completes. -/
theorem Along.invariant {Call : Type} {step : ConcreteNetwork → Call → Option ConcreteNetwork}
    {ok : ConcreteNetwork → Call → Prop} {keeps : ConcreteNetwork → Prop}
    (one : ∀ st call, keeps st → ok st call → ∃ st', step st call = some st' ∧ keeps st') {calls : List Call}
    (kept : keeps st) (along : Along step ok st calls) : ∃ st', calls.foldlM step st = some st' ∧ keeps st' := by
  induction calls generalizing st with
  | nil => exact ⟨st, rfl, kept⟩
  | cons call calls ih =>
    obtain ⟨here, later⟩ := along
    obtain ⟨st₁, first, kept₁⟩ := one st call kept here
    obtain ⟨st', run, kept'⟩ := ih kept₁ (later st₁ first)
    refine ⟨st', ?_, kept'⟩
    rw [List.foldlM_cons,first]
    exact run

theorem Inv.step (inv : Inv st) (stored : Stored st) {edit : Edit} (valid : Valid st edit) (meets : ListsMeet st edit) :
    ∃ st', st.step edit = some st' ∧ Inv st' ∧ Stored st' := by
  cases edit with
  | makeInstance cell =>
    obtain ⟨inv', stored', _⟩ := inv.makeInstance cell
    exact ⟨_, rfl, inv', stored' stored⟩
  | makeNet =>
    obtain ⟨inv', stored', _⟩ := inv.makeNet
    exact ⟨_, rfl, inv', stored' stored⟩
  | makePin inst port net =>
    obtain ⟨onInst, isBit, live⟩ := valid
    obtain ⟨index, isBit⟩ := Option.isSome_iff_exists.1 isBit
    obtain ⟨st', run, inv', stored', _⟩ := inv.makePin onInst isBit live
    exact ⟨st', run, inv', stored' stored meets⟩
  | makeTerm pin net =>
    obtain ⟨st', run, inv', stored', _⟩ := inv.makeTerm valid.1 valid.2 meets
    exact ⟨st', run, inv', stored' stored⟩
  | connect inst port net =>
    obtain ⟨onInst, isBit, live, needs⟩ := valid
    obtain ⟨index, isBit⟩ := Option.isSome_iff_exists.1 isBit
    obtain ⟨st', _, run, inv', stored', _⟩ := inv.connect onInst isBit live needs meets
    exact ⟨st', run, inv', stored' stored⟩
  | disconnectPin pin =>
    obtain ⟨cpin, hpin⟩ := Option.isSome_iff_exists.1 valid
    obtain ⟨st', run, inv', stored', _⟩ := inv.disconnectPin hpin
    exact ⟨st', run, inv', stored' stored⟩
  | deletePin pin =>
    obtain ⟨cpin, hpin⟩ := Option.isSome_iff_exists.1 valid
    obtain ⟨st', run, inv', stored', _⟩ := inv.deletePin hpin ((pinTerm_of_pins hpin).symm.trans meets)
    exact ⟨st', run, inv', stored' stored⟩
  | mergeInto net intoNet =>
    obtain ⟨distinct, onNet, onInto⟩ := valid
    obtain ⟨st', run, inv', stored', _⟩ := inv.mergeInto distinct onNet onInto
    exact ⟨st', run, inv', stored' stored⟩
  | deleteNet net =>
    obtain ⟨cnet, hnet⟩ := Option.isSome_iff_exists.1 valid
    have noTerms : cnet.terms = none := by simpa [ListsMeet,termHead,hnet] using meets
    obtain ⟨st', run, inv', stored', _⟩ := inv.deleteNet hnet noTerms
    exact ⟨st', run, inv', stored' stored⟩
  | replaceCell inst cell =>
    obtain ⟨cinst, hinst⟩ := Option.isSome_iff_exists.1 valid
    exact inv.replaceCell stored hinst meets

/-- A run of edits that meets the conditions completes, and its lists are consistent. -/
theorem edits_consistent (top : Option ConcreteCell) (edits : List Edit)
    (meets : Along step (fun st edit => Valid st edit ∧ ListsMeet st edit) (initial top) edits) :
    ∃ st, edits.foldlM step (initial top) = some st ∧ Consistent st := by
  have one : ∀ st edit, Inv st ∧ Stored st → Valid st edit ∧ ListsMeet st edit → ∃ st', st.step edit = some st' ∧
    Inv st' ∧ Stored st' :=
    fun st edit kept here => kept.1.step kept.2 here.1 here.2
  obtain ⟨st, run, inv, stored⟩ := meets.invariant one (inv_initial top)
  exact ⟨st, run, inv.consistent stored⟩

def bitPort (name : String) (index : ℕ) (direction : PortDirection) : ConcretePort := ⟨name, some index, direction⟩

def onePortCell (direction : PortDirection) : ConcreteCell := ⟨[bitPort "a" 0 direction], 1, false⟩

/-- A top level port connected twice, to two nets. -/
def reconnect : List Edit :=
  [.makeNet, .makeNet, .connect 0 (bitPort "a" 0 .input) (some 1), .connect 0 (bitPort "a" 0 .input) (some 2)]

/-- The terminal of the first connection stays in its net while the pin refers to the second one. -/
theorem reconnect_inconsistent :
    Along step Valid (initial (some (onePortCell .input))) reconnect ∧
      ∃ st, reconnect.foldlM step (initial (some (onePortCell .input))) = some st ∧ ¬Consistent st := by
  have top : (initial (some (onePortCell .input))).topInstance = some 0 := rfl
  refine ⟨⟨trivial, ?_⟩, _, rfl, fun consistent => ?_⟩
  · rintro _ ⟨⟩
    refine ⟨trivial, ?_⟩
    rintro _ ⟨⟩
    refine ⟨⟨rfl, rfl, by rintro _ ⟨⟩; rfl, fun other => absurd top other⟩, ?_⟩
    rintro _ ⟨⟩
    refine ⟨⟨rfl, rfl, by rintro _ ⟨⟩; rfl, fun other => absurd top other⟩, ?_⟩
    rintro _ ⟨⟩
    trivial
  · obtain ⟨cpin, hpin, refers⟩ := consistent.refers 4 ⟨3, some 1, 4, none⟩ rfl
    cases hpin
    cases refers

theorem edits_consistent_connect :
    ∃ st, [.makeNet, .connect 0 (bitPort "a" 0 .input) (some 1)].foldlM step (initial (some (onePortCell .input))) =
    some st ∧
      Consistent st := by
  have top : (initial (some (onePortCell .input))).topInstance = some 0 := rfl
  refine edits_consistent (some (onePortCell .input)) [.makeNet, .connect 0 (bitPort "a" 0 .input) (some 1)]
    ⟨⟨trivial, trivial⟩, ?_⟩
  rintro _ ⟨⟩
  refine ⟨⟨⟨rfl, rfl, by rintro _ ⟨⟩; rfl, fun other => absurd top other⟩, fun _ cinst p hinst found => ?_⟩, ?_⟩
  · cases hinst
    cases found
  · rintro _ ⟨⟩
    trivial

end Run

end GTPower.ConcreteNetwork
