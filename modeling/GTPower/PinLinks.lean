import GTPower.ConcreteNetwork

/-! What the operations on the pin list and the terminal list of a net write, read through the fields of the objects. -/
namespace GTPower

/-- A pin without its place in a list. -/
def ConcretePin.unlinked (cpin : ConcretePin) : ConcretePin := { cpin with id := 0, netNext := none, netPrev := none }

def ConcreteTerm.unlinked (cterm : ConcreteTerm) : ConcreteTerm := { cterm with netNext := none }

namespace ConcreteNetwork

section Views

variable (st : ConcreteNetwork)

def pinData (pin : ℕ) : Option ConcretePin := (st.pins pin).map ConcretePin.unlinked

def termData (term : ℕ) : Option ConcreteTerm := (st.terms term).map ConcreteTerm.unlinked

def pinOwner (pin : ℕ) : Option ℕ := (st.pinData pin).bind (·.net)

def termOwner (term : ℕ) : Option ℕ := (st.termData term).bind (·.net)

def pinHead (net : ℕ) : Option ℕ := (st.nets net).bind (·.pins)

def termHead (net : ℕ) : Option ℕ := (st.nets net).bind (·.terms)

def netLive (net : ℕ) : Bool := (st.nets net).isSome

end Views

section Setters

variable {st : ConcreteNetwork} {a : ℕ} {cpin : Option ConcretePin} {cterm : Option ConcreteTerm}
    {cnet : Option ConcreteNet}

@[simp] theorem pinData_setPin (q : ℕ) : (st.setPin a cpin).pinData q = if q = a then cpin.map ConcretePin.unlinked
    else st.pinData q := by
  by_cases eq : q = a <;> simp [pinData,setPin,eq]

@[simp] theorem pinNext_setPin (q : ℕ) : (st.setPin a cpin).pinNext q = if q = a then cpin.bind (·.netNext)
    else st.pinNext q := by
  by_cases eq : q = a <;> simp [pinNext,setPin,eq]

@[simp] theorem pinPrev_setPin (q : ℕ) : (st.setPin a cpin).pinPrev q = if q = a then cpin.bind (·.netPrev)
    else st.pinPrev q := by
  by_cases eq : q = a <;> simp [pinPrev,setPin,eq]

@[simp] theorem termData_setTerm (q : ℕ) :
    (st.setTerm a cterm).termData q = if q = a then cterm.map ConcreteTerm.unlinked else st.termData q := by
  by_cases eq : q = a <;> simp [termData,setTerm,eq]

@[simp] theorem termNext_setTerm (q : ℕ) : (st.setTerm a cterm).termNext q = if q = a then cterm.bind (·.netNext)
    else st.termNext q := by
  by_cases eq : q = a <;> simp [termNext,setTerm,eq]

@[simp] theorem pinHead_setNet (n : ℕ) : (st.setNet a cnet).pinHead n = if n = a then cnet.bind (·.pins)
    else st.pinHead n := by
  by_cases eq : n = a <;> simp [pinHead,setNet,eq]

@[simp] theorem termHead_setNet (n : ℕ) : (st.setNet a cnet).termHead n = if n = a then cnet.bind (·.terms)
    else st.termHead n := by
  by_cases eq : n = a <;> simp [termHead,setNet,eq]

@[simp] theorem netLive_setNet (n : ℕ) :
    (st.setNet a cnet).netLive n = if n = a then cnet.isSome else st.netLive n := by
  by_cases eq : n = a <;> simp [netLive,setNet,eq]

@[simp] theorem pinHead_setPin : (st.setPin a cpin).pinHead = st.pinHead := rfl

@[simp] theorem termHead_setPin : (st.setPin a cpin).termHead = st.termHead := rfl

@[simp] theorem netLive_setPin : (st.setPin a cpin).netLive = st.netLive := rfl

@[simp] theorem termData_setPin : (st.setPin a cpin).termData = st.termData := rfl

@[simp] theorem termNext_setPin : (st.setPin a cpin).termNext = st.termNext := rfl

@[simp] theorem pinData_setTerm : (st.setTerm a cterm).pinData = st.pinData := rfl

@[simp] theorem pinNext_setTerm : (st.setTerm a cterm).pinNext = st.pinNext := rfl

@[simp] theorem pinPrev_setTerm : (st.setTerm a cterm).pinPrev = st.pinPrev := rfl

@[simp] theorem pinHead_setTerm : (st.setTerm a cterm).pinHead = st.pinHead := rfl

@[simp] theorem termHead_setTerm : (st.setTerm a cterm).termHead = st.termHead := rfl

@[simp] theorem netLive_setTerm : (st.setTerm a cterm).netLive = st.netLive := rfl

@[simp] theorem pinData_setNet : (st.setNet a cnet).pinData = st.pinData := rfl

@[simp] theorem pinNext_setNet : (st.setNet a cnet).pinNext = st.pinNext := rfl

@[simp] theorem pinPrev_setNet : (st.setNet a cnet).pinPrev = st.pinPrev := rfl

@[simp] theorem termData_setNet : (st.setNet a cnet).termData = st.termData := rfl

@[simp] theorem termNext_setNet : (st.setNet a cnet).termNext = st.termNext := rfl

end Setters

/-- Only pins and pin lists differ between the two states. -/
structure PinFrame (st st' : ConcreteNetwork) : Prop where
  terms : st'.terms = st.terms
  termHead : st'.termHead = st.termHead
  live : st'.netLive = st.netLive
  instances : st'.instances = st.instances
  top : st'.topInstance = st.topInstance
  objectId : st'.objectId = st.objectId

/-- Only pin lists are rearranged between the two states. -/
structure PinsMoved (st st' : ConcreteNetwork) : Prop extends PinFrame st st' where
  data : st'.pinData = st.pinData

/-- Only terminals and terminal lists differ between the two states. -/
structure TermFrame (st st' : ConcreteNetwork) : Prop where
  pins : st'.pins = st.pins
  pinHead : st'.pinHead = st.pinHead
  live : st'.netLive = st.netLive
  instances : st'.instances = st.instances
  top : st'.topInstance = st.topInstance
  objectId : st'.objectId = st.objectId

/-- Only terminal lists are rearranged between the two states. -/
structure TermsMoved (st st' : ConcreteNetwork) : Prop extends TermFrame st st' where
  data : st'.termData = st.termData

variable {st st' st'' : ConcreteNetwork} {net pin term : ℕ}

theorem PinFrame.trans (first : PinFrame st st') (second : PinFrame st' st'') : PinFrame st st'' where
  terms := second.terms.trans first.terms
  termHead := second.termHead.trans first.termHead
  live := second.live.trans first.live
  instances := second.instances.trans first.instances
  top := second.top.trans first.top
  objectId := second.objectId.trans first.objectId

theorem PinsMoved.trans (first : PinsMoved st st') (second : PinsMoved st' st'') : PinsMoved st st'' :=
  { first.toPinFrame.trans second.toPinFrame with data := second.data.trans first.data }

theorem TermFrame.trans (first : TermFrame st st') (second : TermFrame st' st'') : TermFrame st st'' where
  pins := second.pins.trans first.pins
  pinHead := second.pinHead.trans first.pinHead
  live := second.live.trans first.live
  instances := second.instances.trans first.instances
  top := second.top.trans first.top
  objectId := second.objectId.trans first.objectId

theorem TermsMoved.trans (first : TermsMoved st st') (second : TermsMoved st' st'') : TermsMoved st st'' :=
  { first.toTermFrame.trans second.toTermFrame with data := second.data.trans first.data }

theorem pinData_isSome : (st.pinData pin).isSome = (st.pins pin).isSome := by simp [pinData]

theorem modifyPin_some {change : ConcretePin → ConcretePin} {cpin : ConcretePin} (here : st.pins pin = some cpin) :
    st.modifyPin pin change = some (st.setPin pin (some (change cpin))) := by
  simp [modifyPin,here]

theorem modifyTerm_some {change : ConcreteTerm → ConcreteTerm} {cterm : ConcreteTerm}
    (here : st.terms term = some cterm) :
    st.modifyTerm term change = some (st.setTerm term (some (change cterm))) := by
  simp [modifyTerm,here]

theorem modifyNet_some {change : ConcreteNet → ConcreteNet} {cnet : ConcreteNet} (here : st.nets net = some cnet) :
    st.modifyNet net change = some (st.setNet net (some (change cnet))) := by
  simp [modifyNet,here]

theorem PinsMoved.setPin {cpin cpin' : ConcretePin} (here : st.pins pin = some cpin)
    (same : cpin'.unlinked = cpin.unlinked) :
    PinsMoved st (st.setPin pin (some cpin')) where
  data := by
    funext q
    rw [pinData_setPin]
    by_cases eq : q = pin <;> simp [eq,same,pinData,here]
  terms := rfl
  termHead := rfl
  live := rfl
  instances := rfl
  top := rfl
  objectId := rfl

theorem PinsMoved.setNet {cnet : ConcreteNet} (cnet' : ConcreteNet) (here : st.nets net = some cnet)
    (same : cnet'.terms = cnet.terms) :
    PinsMoved st (st.setNet net (some cnet')) where
  data := rfl
  terms := rfl
  termHead := by
    funext n
    rw [termHead_setNet]
    by_cases eq : n = net <;> simp [eq,same,ConcreteNetwork.termHead,here]
  live := by
    funext n
    rw [netLive_setNet]
    by_cases eq : n = net <;> simp [eq,netLive,here]
  instances := rfl
  top := rfl
  objectId := rfl

theorem TermsMoved.setTerm {cterm : ConcreteTerm} (cterm' : ConcreteTerm) (here : st.terms term = some cterm)
    (same : cterm'.unlinked = cterm.unlinked) : TermsMoved st (st.setTerm term (some cterm')) where
  data := by
    funext q
    rw [termData_setTerm]
    by_cases eq : q = term <;> simp [eq,same,termData,here]
  pins := rfl
  pinHead := rfl
  live := rfl
  instances := rfl
  top := rfl
  objectId := rfl

theorem TermsMoved.setNet {cnet : ConcreteNet} (cnet' : ConcreteNet) (here : st.nets net = some cnet)
    (same : cnet'.pins = cnet.pins) :
    TermsMoved st (st.setNet net (some cnet')) where
  data := rfl
  pins := rfl
  pinHead := by
    funext n
    rw [pinHead_setNet]
    by_cases eq : n = net <;> simp [eq,same,ConcreteNetwork.pinHead,here]
  live := by
    funext n
    rw [netLive_setNet]
    by_cases eq : n = net <;> simp [eq,netLive,here]
  instances := rfl
  top := rfl
  objectId := rfl

/-- The pin lists after a change of links: the new heads, successors and predecessors. -/
structure PinLinks (st st' : ConcreteNetwork) (head next prev : ℕ → Option ℕ) : Prop where
  moved : PinsMoved st st'
  drvrs : st'.netDrvrPinMap = st.netDrvrPinMap
  head : st'.pinHead = head
  next : st'.pinNext = next
  prev : st'.pinPrev = prev

structure TermLinks (st st' : ConcreteNetwork) (head next : ℕ → Option ℕ) : Prop where
  moved : TermsMoved st st'
  drvrs : st'.netDrvrPinMap = st.netDrvrPinMap
  head : st'.termHead = head
  next : st'.termNext = next

theorem setPrev_spec {first : Option ℕ} (prev : Option ℕ) (live : ∀ p, first = some p → (st.pins p).isSome) :
    ∃ st', (st.modifyPinIf first fun cpin => { cpin with netPrev := prev }) = some st' ∧
      PinLinks st st' st.pinHead st.pinNext fun q => if first = some q then prev else st.pinPrev q := by
  cases first with
  | none => exact ⟨st, rfl, ⟨⟨rfl, rfl, rfl, rfl, rfl, rfl⟩, rfl⟩, rfl, rfl, rfl, by simp⟩
  | some p =>
    obtain ⟨cpin, here⟩ := Option.isSome_iff_exists.1 (live p rfl)
    refine ⟨_, modifyPin_some here, .setPin here rfl, rfl, rfl, ?_, ?_⟩
    · funext q
      rw [pinNext_setPin]
      by_cases eq : q = p <;> simp [eq,pinNext,here]
    · funext q
      simp [eq_comm]

theorem setNext_spec {before : Option ℕ} (next : Option ℕ) (live : ∀ p, before = some p → (st.pins p).isSome) :
    ∃ st', (st.modifyPinIf before fun cpin => { cpin with netNext := next }) = some st' ∧
      PinLinks st st' st.pinHead (fun q => if before = some q then next else st.pinNext q) st.pinPrev := by
  cases before with
  | none => exact ⟨st, rfl, ⟨⟨rfl, rfl, rfl, rfl, rfl, rfl⟩, rfl⟩, rfl, rfl, by simp, rfl⟩
  | some p =>
    obtain ⟨cpin, here⟩ := Option.isSome_iff_exists.1 (live p rfl)
    refine ⟨_, modifyPin_some here, .setPin here rfl, rfl, rfl, ?_, ?_⟩
    · funext q
      simp [eq_comm]
    · funext q
      rw [pinPrev_setPin]
      by_cases eq : q = p <;> simp [eq,pinPrev,here]

theorem netAddPin_spec (onNet : st.netLive net) (onPin : (st.pins pin).isSome)
    (live : ∀ p, st.pinHead net = some p → (st.pins p).isSome) :
    ∃ st', st.netAddPin net pin = some st' ∧
      PinLinks st st' (fun n => if n = net then some pin else st.pinHead n) (fun q => if q = pin then st.pinHead net
        else st.pinNext q)
        fun q => if q = pin then none else if st.pinHead net = some q then some pin else st.pinPrev q := by
  obtain ⟨cnet, hnet⟩ := Option.isSome_iff_exists.1 onNet
  have head : st.pinHead net = cnet.pins := by simp [pinHead,hnet]
  rw [head] at live ⊢
  obtain ⟨st₁, run₁, links₁⟩ := setPrev_spec (some pin) live
  have onPin₁ : (st₁.pins pin).isSome := by rw [← pinData_isSome,links₁.moved.data,pinData_isSome]; exact onPin
  obtain ⟨cpin, hpin⟩ := Option.isSome_iff_exists.1 onPin₁
  have moved₂ : PinsMoved st₁ (st₁.setPin pin (some { cpin with netNext := cnet.pins, netPrev := none })) :=
    .setPin hpin rfl
  have onNet₂ : st₁.netLive net := by rw [links₁.moved.live]; exact onNet
  obtain ⟨cnet', hnet'⟩ := Option.isSome_iff_exists.1 onNet₂
  have hnet₂ : (st₁.setPin pin (some { cpin with netNext := cnet.pins, netPrev := none })).nets net = some cnet' :=
    hnet'
  refine ⟨_, ?_, links₁.moved.trans (moved₂.trans (.setNet { cnet' with pins := some pin } hnet₂ rfl)),
    links₁.drvrs, ?_, ?_, ?_⟩
  · simp [netAddPin,hnet,run₁,modifyPin_some hpin,modifyNet_some hnet₂]
  · funext n
    by_cases eq : n = net <;> simp [eq,links₁.head]
  · funext q
    by_cases eq : q = pin <;> simp [eq,links₁.next]
  · funext q
    by_cases eq : q = pin <;> simp [eq,links₁.prev]

theorem netDeletePin_spec (onNet : st.netLive net) (onPin : (st.pins pin).isSome)
    (before : ∀ p, st.pinPrev pin = some p → (st.pins p).isSome)
    (after : ∀ p, st.pinNext pin = some p → (st.pins p).isSome) :
    ∃ st', st.netDeletePin net pin = some st' ∧
      PinLinks st st' (fun n => if n = net then if st.pinHead net = some pin then st.pinNext pin else st.pinHead net
        else st.pinHead n)
        (fun q => if st.pinPrev pin = some q then st.pinNext pin else st.pinNext q)
        fun q => if st.pinNext pin = some q then st.pinPrev pin else st.pinPrev q := by
  obtain ⟨cpin, hpin⟩ := Option.isSome_iff_exists.1 onPin
  have prev : st.pinPrev pin = cpin.netPrev := by simp [pinPrev,hpin]
  have next : st.pinNext pin = cpin.netNext := by simp [pinNext,hpin]
  rw [prev] at before ⊢
  rw [next] at after ⊢
  obtain ⟨st₁, run₁, links₁⟩ := setNext_spec cpin.netNext before
  have after₁ : ∀ p, cpin.netNext = some p → (st₁.pins p).isSome := fun p eq => by
    rw [← pinData_isSome,links₁.moved.data,pinData_isSome]; exact after p eq
  obtain ⟨st₂, run₂, links₂⟩ := setPrev_spec cpin.netPrev after₁
  have onNet₂ : st₂.netLive net := by rw [links₂.moved.live,links₁.moved.live]; exact onNet
  obtain ⟨cnet, hnet⟩ := Option.isSome_iff_exists.1 onNet₂
  have head : cnet.pins = st.pinHead net := by rw [← links₁.head,← links₂.head]; simp [pinHead,hnet]
  have heads : st₂.pinHead = st.pinHead := links₂.head.trans links₁.head
  have nexts := links₂.next.trans links₁.next
  have prevs := links₂.prev
  rw [links₁.prev] at prevs
  have moved := links₁.moved.trans links₂.moved
  have drvrs := links₂.drvrs.trans links₁.drvrs
  by_cases first : cnet.pins = some pin
  · refine ⟨_, ?_, moved.trans (.setNet { cnet with pins := cpin.netNext } hnet rfl), drvrs, ?_, nexts, prevs⟩
    · simp [netDeletePin,hpin,run₁,run₂,hnet,first,modifyNet_some hnet]
    · funext n
      have here : st.pinHead net = some pin := head.symm.trans first
      by_cases eq : n = net <;> simp [eq,here,heads]
  · refine ⟨st₂, ?_, moved, drvrs, ?_, nexts, prevs⟩
    · simp [netDeletePin,hpin,run₁,run₂,hnet,first]
    · rw [heads]
      funext n
      by_cases eq : n = net <;> simp [eq,← head,first]

theorem netAddTerm_spec (onNet : st.netLive net) (onTerm : (st.terms term).isSome) :
    ∃ st', st.netAddTerm net term = some st' ∧
      TermLinks st st' (fun n => if n = net then some term else st.termHead n)
        fun t => if t = term then st.termHead net else st.termNext t := by
  obtain ⟨cnet, hnet⟩ := Option.isSome_iff_exists.1 onNet
  obtain ⟨cterm, hterm⟩ := Option.isSome_iff_exists.1 onTerm
  have head : st.termHead net = cnet.terms := by simp [termHead,hnet]
  have hterm₁ : (st.setNet net (some { cnet with terms := some term })).terms term = some cterm := hterm
  refine ⟨_, ?_, (TermsMoved.setNet { cnet with terms := some term } hnet rfl).trans
    (.setTerm { cterm with netNext := cnet.terms } hterm₁ rfl), rfl, ?_, ?_⟩
  · simp [netAddTerm,hnet,modifyNet_some hnet,modifyTerm_some hterm₁]
  · funext n
    by_cases eq : n = net <;> simp [eq]
  · funext t
    by_cases eq : t = term <;> simp [eq,head]

/-- From a place in the list on, the loop takes the terminal out after the one before it. -/
theorem netDeleteTermFrom_spec (onNet : st.netLive net) {fuel : ℕ} {cur before : Option ℕ} {rest : List ℕ}
    (list : Linked.IsList st.termNext cur rest) (enough : rest.length ≤ fuel) (mem : term ∈ rest)
    (live : ∀ t ∈ rest, (st.terms t).isSome) (liveBefore : ∀ t, before = some t → (st.terms t).isSome) :
    ∃ st', st.netDeleteTermFrom net term fuel cur before = some st' ∧
      TermLinks st st'
        (fun n => if n = net then if Linked.precedes term before rest = none then st.termNext term else st.termHead net
          else st.termHead n)
        fun t => if Linked.precedes term before rest = some t then st.termNext term else st.termNext t := by
  induction rest generalizing fuel cur before with
  | nil => cases mem
  | cons t rest ih =>
    obtain ⟨rfl, list⟩ := list
    cases fuel with
    | zero => simp at enough
    | succ fuel =>
      obtain ⟨cterm, hterm⟩ := Option.isSome_iff_exists.1 (live t List.mem_cons_self)
      have next : st.termNext t = cterm.netNext := by simp [termNext,hterm]
      by_cases found : t = term
      · subst found
        cases before with
        | none =>
          obtain ⟨cnet, hnet⟩ := Option.isSome_iff_exists.1 onNet
          refine ⟨_, ?_, .setNet { cnet with terms := cterm.netNext } hnet rfl, rfl, ?_, ?_⟩
          · simp [netDeleteTermFrom,hterm,modifyNet_some hnet]
          · funext n
            by_cases eq : n = net <;> simp [eq,Linked.precedes,next]
          · funext q
            simp [Linked.precedes]
        | some prev =>
          obtain ⟨cprev, hprev⟩ := Option.isSome_iff_exists.1 (liveBefore prev rfl)
          refine ⟨_, ?_, .setTerm { cprev with netNext := cterm.netNext } hprev rfl, rfl, ?_, ?_⟩
          · simp [netDeleteTermFrom,hterm,modifyTerm_some hprev]
          · funext n
            by_cases eq : n = net <;> simp [eq,Linked.precedes]
          · funext q
            simp [Linked.precedes,next,eq_comm]
      · have mem : term ∈ rest := List.mem_of_ne_of_mem (Ne.symm found) mem
        rw [next] at list
        have liveHere : ∀ q, some t = some q → (st.terms q).isSome := by
          rintro q ⟨⟩
          exact live t List.mem_cons_self
        obtain ⟨st', run, links⟩ :=
          ih list (Nat.le_of_succ_le_succ enough) mem (fun q inside => live q (List.mem_cons_of_mem t inside))
          liveHere
        refine ⟨st', ?_, ?_⟩
        · simpa [netDeleteTermFrom,hterm,found] using run
        · simpa [Linked.precedes,found] using links

end ConcreteNetwork

end GTPower
