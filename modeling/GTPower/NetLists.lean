import GTPower.PinLinks

/-! The pin lists and the terminal lists of all nets as two families of lists, and how the list operations of a net
change them. -/
namespace GTPower.ConcreteNetwork

open Linked

variable {st st' : ConcreteNetwork} {net pin term : ℕ}

section Lists

/-- The pin lists and terminal lists, where `owner` and `termOwner` say in which list each of them is. -/
structure Threaded (st : ConcreteNetwork) (owner termOwner : ℕ → Option ℕ) (pinList termList : ℕ → List ℕ) : Prop where
  pins : Chains st.pinHead st.pinNext owner pinList
  back : Backs st.pinPrev pinList fun _ => True
  terms : Chains st.termHead st.termNext termOwner termList
  live : ∀ p n, owner p = some n → (st.pins p).isSome ∧ st.netLive n
  termLive : ∀ t n, termOwner t = some n → (st.terms t).isSome ∧ st.netLive n

variable {owner termOwner : ℕ → Option ℕ} {pinList termList : ℕ → List ℕ}

theorem PinsMoved.pinLive (moved : PinsMoved st st') (p : ℕ) : (st'.pins p).isSome = (st.pins p).isSome := by
  rw [← pinData_isSome,moved.data,pinData_isSome]

theorem TermsMoved.termLive (moved : TermsMoved st st') (t : ℕ) : (st'.terms t).isSome = (st.terms t).isSome := by
  have same := congrFun moved.data t
  simpa [termData] using congrArg Option.isSome same

theorem Threaded.pinListLive (threaded : Threaded st owner termOwner pinList termList) {n p : ℕ} (mem : p ∈ pinList n) :
    (st.pins p).isSome :=
  (threaded.live p n ((threaded.pins.owner n p).1 mem)).1

theorem Threaded.addPin (threaded : Threaded st owner termOwner pinList termList) (onNet : st.netLive net)
    (onPin : (st.pins pin).isSome) (free : owner pin = none) :
    ∃ st', st.netAddPin net pin = some st' ∧ PinsMoved st st' ∧ st'.netDrvrPinMap = st.netDrvrPinMap ∧
      (∀ p, st'.pinNext p = if p = pin then st.pinHead net else st.pinNext p) ∧
      Threaded st' (Function.update owner pin (some net)) termOwner (Function.update pinList net (pin :: pinList net))
        termList := by
  obtain ⟨st', run, links⟩ :=
    netAddPin_spec onNet onPin fun p head => threaded.pinListLive (threaded.pins.head_mem head)
  refine ⟨st', run, links.moved, links.drvrs, congrFun links.next, ?_, ?_, ?_, fun p n owned => ?_, fun t n owned => ?_⟩
  · exact threaded.pins.push free (congrFun links.head) (congrFun links.next) fun p => by simp [Function.update_apply]
  · exact threaded.back.push threaded.pins free trivial (congrFun links.prev)
  · have next : st'.termNext = st.termNext := by funext t; simp [termNext,links.moved.terms]
    rw [links.moved.termHead,next]
    exact threaded.terms
  · rw [links.moved.pinLive,links.moved.live]
    by_cases eq : p = pin
    · subst eq
      rw [Function.update_self] at owned
      cases owned
      exact ⟨onPin, onNet⟩
    · rw [Function.update_of_ne eq] at owned
      exact threaded.live p n owned
  · rw [links.moved.terms,links.moved.live]
    exact threaded.termLive t n owned

theorem Threaded.deletePin (threaded : Threaded st owner termOwner pinList termList) (owned : owner pin = some net) :
    ∃ st', st.netDeletePin net pin = some st' ∧ PinsMoved st st' ∧ st'.netDrvrPinMap = st.netDrvrPinMap ∧
      Threaded st' (Function.update owner pin none) termOwner (Function.update pinList net ((pinList net).erase pin))
        termList := by
  have mem : pin ∈ pinList net := (threaded.pins.owner net pin).2 owned
  obtain ⟨onPin, onNet⟩ := threaded.live pin net owned
  have prev := (threaded.back net trivial).prev_eq mem
  have before : ∀ p, st.pinPrev pin = some p → (st.pins p).isSome := by
    intro p eq
    rcases @precedes_cases _ _ none _ _ mem with ⟨first, _⟩ | ⟨q, inside, eq', _⟩
    · cases first.symm.trans (prev.symm.trans eq)
    · obtain rfl := Option.some.inj (eq'.symm.trans (prev.symm.trans eq))
      exact threaded.pinListLive inside
  have after : ∀ p, st.pinNext pin = some p → (st.pins p).isSome := fun p eq =>
    threaded.pinListLive ((threaded.pins.chain net).next_mem mem eq)
  obtain ⟨st', run, links⟩ := netDeletePin_spec onNet onPin before after
  refine ⟨st', run, links.moved, links.drvrs, ?_, ?_, ?_, fun p n owned' => ?_, fun t n owned => ?_⟩
  · refine threaded.pins.unlink owned (congrFun links.head) (fun p => ?_) fun p => by simp [Function.update_apply]
    rw [links.next,prev]
  · exact threaded.back.unlink threaded.pins owned (congrFun links.prev)
  · have next : st'.termNext = st.termNext := by funext t; simp [termNext,links.moved.terms]
    rw [links.moved.termHead,next]
    exact threaded.terms
  · rw [links.moved.pinLive,links.moved.live]
    by_cases eq : p = pin
    · simp [eq] at owned'
    · rw [Function.update_of_ne eq] at owned'
      exact threaded.live p n owned'
  · rw [links.moved.terms,links.moved.live]
    exact threaded.termLive t n owned

theorem Threaded.addTerm (threaded : Threaded st owner termOwner pinList termList) (onNet : st.netLive net)
    (onTerm : (st.terms term).isSome) (free : termOwner term = none) :
    ∃ st', st.netAddTerm net term = some st' ∧ TermsMoved st st' ∧ st'.netDrvrPinMap = st.netDrvrPinMap ∧
      (∀ t, st'.termNext t = if t = term then st.termHead net else st.termNext t) ∧
      Threaded st' owner (Function.update termOwner term (some net)) pinList (Function.update termList net (term ::
        termList net)) := by
  obtain ⟨st', run, links⟩ := netAddTerm_spec onNet onTerm
  have next : st'.pinNext = st.pinNext := by funext p; simp [pinNext,links.moved.pins]
  have prev : st'.pinPrev = st.pinPrev := by funext p; simp [pinPrev,links.moved.pins]
  refine ⟨st', run, links.moved, links.drvrs, congrFun links.next, ?_, ?_, ?_, fun p n owned => ?_, fun t n owned => ?_⟩
  · rw [links.moved.pinHead,next]
    exact threaded.pins
  · rw [prev]
    exact threaded.back
  · exact threaded.terms.push free (congrFun links.head) (congrFun links.next) fun t => by simp [Function.update_apply]
  · rw [links.moved.pins,links.moved.live]
    exact threaded.live p n owned
  · rw [links.moved.termLive,links.moved.live]
    by_cases eq : t = term
    · subst eq
      rw [Function.update_self] at owned
      cases owned
      exact ⟨onTerm, onNet⟩
    · rw [Function.update_of_ne eq] at owned
      exact threaded.termLive t n owned

theorem Threaded.deleteTerm (threaded : Threaded st owner termOwner pinList termList)
    (owned : termOwner term = some net) (fresh : ∀ t, st.objectId ≤ t → st.terms t = none) :
    ∃ st', st.netDeleteTerm net term = some st' ∧ TermsMoved st st' ∧ st'.netDrvrPinMap = st.netDrvrPinMap ∧
      Threaded st' owner (Function.update termOwner term none) pinList
        (Function.update termList net ((termList net).erase term)) := by
  have mem : term ∈ termList net := (threaded.terms.owner net term).2 owned
  have live : ∀ t ∈ termList net, (st.terms t).isSome :=
    fun t inside => (threaded.termLive t net ((threaded.terms.owner net t).1 inside)).1
  have onNet := (threaded.termLive term net owned).2
  obtain ⟨cnet, hnet⟩ := Option.isSome_iff_exists.1 onNet
  have list := threaded.terms.chain net
  have head : st.termHead net = cnet.terms := by simp [termHead,hnet]
  have enough : (termList net).length ≤ st.objectId := by
    refine length_le_of_lt list.nodup fun t inside => ?_
    by_contra beyond
    simpa [fresh t (Nat.le_of_not_lt beyond)] using live t inside
  obtain ⟨st', run, links⟩ :=
    netDeleteTermFrom_spec onNet list enough mem live fun t (eq : none = some t) => by cases eq
  have next : st'.pinNext = st.pinNext := by funext p; simp [pinNext,links.moved.pins]
  have prev : st'.pinPrev = st.pinPrev := by funext p; simp [pinPrev,links.moved.pins]
  refine ⟨st', ?_, links.moved, links.drvrs, ?_, ?_, ?_, fun p n owned => ?_, fun t n owned' => ?_⟩
  · simpa [netDeleteTerm,hnet,head] using run
  · rw [links.moved.pinHead,next]
    exact threaded.pins
  · rw [prev]
    exact threaded.back
  · refine threaded.terms.unlink owned (fun n => ?_) (congrFun links.next) fun t => by simp [Function.update_apply]
    have starts : precedes term none (termList net) = none ↔ st.termHead net = some term := by
      rw [list.head_eq]
      rcases @precedes_cases _ _ none _ _ mem with ⟨eq, first⟩ | ⟨b, _, eq, later⟩
      · simp [eq,first]
      · simp [eq,later]
    rw [links.head]
    simp [starts]
  · rw [links.moved.pins,links.moved.live]
    exact threaded.live p n owned
  · rw [links.moved.termLive,links.moved.live]
    by_cases eq : t = term
    · simp [eq] at owned'
    · rw [Function.update_of_ne eq] at owned'
      exact threaded.termLive t n owned'

theorem Threaded.congr (threaded : Threaded st owner termOwner pinList termList) (pinHead : st'.pinHead = st.pinHead)
    (termHead : st'.termHead = st.termHead) (live : ∀ n, st.netLive n → st'.netLive n)
    (links : ∀ p n, owner p = some n → st'.pinNext p = st.pinNext p ∧ st'.pinPrev p = st.pinPrev p ∧
      (st'.pins p).isSome)
    (termLinks : ∀ t n, termOwner t = some n → st'.termNext t = st.termNext t ∧ (st'.terms t).isSome) :
    Threaded st' owner termOwner pinList termList where
  pins := by
    refine ⟨fun n => ?_, threaded.pins.owner⟩
    rw [pinHead]
    exact (threaded.pins.chain n).congr fun p mem => (links p n ((threaded.pins.owner n p).1 mem)).1
  back := fun n _ => (threaded.back n trivial).congr fun p mem => (links p n ((threaded.pins.owner n p).1 mem)).2.1
  terms := by
    refine ⟨fun n => ?_, threaded.terms.owner⟩
    rw [termHead]
    exact (threaded.terms.chain n).congr fun t mem => (termLinks t n ((threaded.terms.owner n t).1 mem)).1
  live := fun p n owned => ⟨(links p n owned).2.2, live n (threaded.live p n owned).2⟩
  termLive := fun t n owned => ⟨(termLinks t n owned).2, live n (threaded.termLive t n owned).2⟩

end Lists

section Drain

variable {src : ℕ} {cur : Option ℕ} {pinList termList : ℕ → List ℕ}

theorem pinOwner_setPin {cpin : Option ConcretePin} (p : ℕ) :
    (st.setPin pin cpin).pinOwner p = if p = pin then cpin.bind (·.net) else st.pinOwner p := by
  by_cases eq : p = pin
  · subst eq
    cases cpin <;> simp [pinOwner,ConcretePin.unlinked]
  · simp [pinOwner,eq]

theorem termOwner_setTerm {cterm : Option ConcreteTerm} (t : ℕ) :
    (st.setTerm term cterm).termOwner t = if t = term then cterm.bind (·.net) else st.termOwner t := by
  by_cases eq : t = term
  · subst eq
    cases cterm <;> simp [termOwner,ConcreteTerm.unlinked]
  · simp [termOwner,eq]

theorem PinsMoved.pinOwner (moved : PinsMoved st st') : st'.pinOwner = st.pinOwner := by
  funext p
  simp [ConcreteNetwork.pinOwner,moved.data]

theorem TermsMoved.termOwner (moved : TermsMoved st st') : st'.termOwner = st.termOwner := by
  funext t
  simp [ConcreteNetwork.termOwner,moved.data]

theorem pinLive_of_owner {n : ℕ} (owned : st.pinOwner pin = some n) : (st.pins pin).isSome := by
  cases here : st.pins pin <;> simp [pinOwner,pinData,here] at owned ⊢

theorem termLive_of_owner {n : ℕ} (owned : st.termOwner term = some n) : (st.terms term).isSome := by
  cases here : st.terms term <;> simp [termOwner,termData,here] at owned ⊢

/-- The list of `src` from `cur` on is still to be moved; it is linked forwards only. -/
structure Draining (st : ConcreteNetwork) (src : ℕ) (cur : Option ℕ) (pinList : ℕ → List ℕ) : Prop where
  chains : Chains (Function.update st.pinHead src cur) st.pinNext st.pinOwner pinList
  back : Backs st.pinPrev pinList (· ≠ src)
  live : ∀ p n, st.pinOwner p = some n → st.netLive n

theorem Draining.move (draining : Draining st src (some pin) pinList) (distinct : net ≠ src) (onNet : st.netLive net) :
    ∃ st₁ cpin, st.pins pin = some cpin ∧ st.netAddPin net pin = some st₁ ∧
      ∃ st₂, st₁.modifyPin pin (fun c => { c with net := some net }) = some st₂ ∧
        PinFrame st st₂ ∧ st₂.netDrvrPinMap = st.netDrvrPinMap ∧
        (∀ p, st₂.pinData p = if p = pin then (st.pinData p).map fun c => { c with net := some net }
          else st.pinData p) ∧
        Draining st₂ src cpin.netNext
          (Function.update (Function.update pinList src (pinList src).tail) net (pin ::
            (Function.update pinList src (pinList src).tail) net)) := by
  have first : (Function.update st.pinHead src (some pin)) src = some pin := Function.update_self ..
  have owned : st.pinOwner pin = some src := (draining.chains.owner src pin).1 (draining.chains.head_mem first)
  have onPin := pinLive_of_owner owned
  obtain ⟨cpin, hpin⟩ := Option.isSome_iff_exists.1 onPin
  have next : st.pinNext pin = cpin.netNext := by simp [pinNext,hpin]
  have headNet : (Function.update st.pinHead src (some pin)) net = st.pinHead net := Function.update_of_ne distinct ..
  have live : ∀ p, st.pinHead net = some p → (st.pins p).isSome := fun p eq =>
    pinLive_of_owner ((draining.chains.owner net p).1 (draining.chains.head_mem (headNet.trans eq)))
  obtain ⟨st₁, run, links⟩ := netAddPin_spec onNet onPin live
  have onPin₁ : (st₁.pins pin).isSome := by rw [links.moved.pinLive]; exact onPin
  obtain ⟨cpin₁, hpin₁⟩ := Option.isSome_iff_exists.1 onPin₁
  have data₁ : cpin₁.unlinked = cpin.unlinked := by
    have same := congrFun links.moved.data pin
    simpa [pinData,hpin,hpin₁] using same
  have next₁ : cpin₁.netNext = st.pinHead net := by
    have same := congrFun links.next pin
    simpa [pinNext,hpin₁] using same
  have prev₁ : cpin₁.netPrev = none := by
    have same := congrFun links.prev pin
    simpa [pinPrev,hpin₁] using same
  have popped : Chains (Function.update st.pinHead src cpin.netNext) st.pinNext (Function.update st.pinOwner pin none)
      (Function.update pinList src (pinList src).tail) :=
    draining.chains.pop first (fun n => by by_cases eq : n = src <;> simp [eq,next]) fun p => by
      simp [Function.update_apply]
  have back : Backs st.pinPrev (Function.update pinList src (pinList src).tail) (· ≠ src) := fun n other => by
    rw [Function.update_of_ne other]
    exact draining.back n other
  have headNet' : (Function.update st.pinHead src cpin.netNext) net = st.pinHead net :=
    Function.update_of_ne distinct ..
  refine ⟨st₁, cpin, hpin, run, st₁.setPin pin (some { cpin₁ with net := some net }), modifyPin_some hpin₁, ?_,
    links.drvrs, fun p => ?_,
    ?_, ?_, fun p n owned' => ?_⟩
  · exact links.moved.toPinFrame.trans ⟨rfl, rfl, rfl, rfl, rfl, rfl⟩
  · by_cases eq : p = pin
    · subst eq
      rw [pinData_setPin,if_pos rfl,if_pos rfl]
      simp only [pinData,hpin,Option.map_some]
      rw [show ({ cpin₁ with net := some net } : ConcretePin).unlinked =
        { cpin₁.unlinked with net := some net } from rfl,data₁]
    · simp [eq,links.moved.data]
  · refine popped.push (Function.update_self ..) (fun n => ?_) (fun p => ?_) fun p => ?_
    · rw [pinHead_setPin,links.head]
      by_cases isSrc : n = src
      · simp [isSrc,Ne.symm distinct]
      · by_cases eq : n = net <;> simp [isSrc,eq,distinct]
    · rw [headNet',pinNext_setPin,links.next]
      by_cases eq : p = pin <;> simp [eq,next₁]
    · rw [pinOwner_setPin,links.moved.pinOwner]
      by_cases eq : p = pin <;> simp [eq]
  · refine back.push popped (Function.update_self ..) distinct fun p => ?_
    rw [headNet',pinPrev_setPin,links.prev]
    by_cases eq : p = pin <;> simp [eq,prev₁]
  · rw [netLive_setPin,links.moved.live]
    rw [pinOwner_setPin,links.moved.pinOwner] at owned'
    by_cases eq : p = pin
    · simp only [eq,if_true,Option.bind_some,Option.some.injEq] at owned'
      exact owned' ▸ onNet
    · simp only [eq,if_false] at owned'
      exact draining.live p n owned'

theorem Draining.mergePins {fuel : ℕ} {rest : List ℕ} (draining : Draining st src cur pinList) (distinct : net ≠ src)
    (onNet : st.netLive net) (left : pinList src = rest) (enough : rest.length ≤ fuel) :
    ∃ st' pinList', ConcreteNetwork.mergePins net fuel cur st = some st' ∧ PinFrame st st' ∧
    st'.netDrvrPinMap = st.netDrvrPinMap ∧
      (∀ p, st'.pinData p = if p ∈ rest then (st.pinData p).map fun c => { c with net := some net } else st.pinData p) ∧
      Draining st' src none pinList' := by
  induction rest generalizing fuel st cur pinList with
  | nil =>
    have list := draining.chains.chain src
    rw [Function.update_self,left] at list
    cases list
    refine ⟨st, pinList, ?_, ⟨rfl, rfl, rfl, rfl, rfl, rfl⟩, rfl, by simp, draining⟩
    cases fuel <;> rfl
  | cons pin rest ih =>
    have list := draining.chains.chain src
    rw [Function.update_self,left] at list
    obtain ⟨rfl, _⟩ := list
    cases fuel with
    | zero => simp at enough
    | succ fuel =>
      obtain ⟨st₁, cpin, hpin, run, st₂, set, frame, drvrs, data, draining₂⟩ := draining.move distinct onNet
      have left₂ : (Function.update (Function.update pinList src (pinList src).tail) net
          (pin :: (Function.update pinList src (pinList src).tail) net)) src = rest := by
        rw [Function.update_of_ne (Ne.symm distinct),Function.update_self,left,List.tail_cons]
      obtain ⟨st', pinList', run', frame', drvrs', data', draining'⟩ :=
        ih draining₂ (by rw [frame.live]; exact onNet) left₂ (Nat.le_of_succ_le_succ enough)
      refine ⟨st', pinList', ?_, frame.trans frame', drvrs'.trans drvrs, fun p => ?_, draining'⟩
      · simp [ConcreteNetwork.mergePins,hpin,run,set,run']
      · rw [data',data]
        by_cases eq : p = pin <;> by_cases mem : p ∈ rest <;> cases here : st.pinData p <;> simp_all

/-- The terminals of `src` from `cur` on are still to be moved. -/
structure TermDraining (st : ConcreteNetwork) (src : ℕ) (cur : Option ℕ) (termList : ℕ → List ℕ) : Prop where
  chains : Chains (Function.update st.termHead src cur) st.termNext st.termOwner termList
  live : ∀ t n, st.termOwner t = some n → st.netLive n

theorem TermDraining.move (draining : TermDraining st src (some term) termList) (distinct : net ≠ src)
    (onNet : st.netLive net) :
    ∃ st₁ cterm, st.terms term = some cterm ∧ st.netAddTerm net term = some st₁ ∧
      ∃ st₂, st₁.modifyTerm term (fun c => { c with net := some net }) = some st₂ ∧
        TermFrame st st₂ ∧ st₂.netDrvrPinMap = st.netDrvrPinMap ∧
        (∀ t, st₂.termData t = if t = term then (st.termData t).map fun c => { c with net := some net }
          else st.termData t) ∧
        TermDraining st₂ src cterm.netNext (Function.update (Function.update termList src (termList src).tail) net
          (term :: (Function.update termList src (termList src).tail) net)) := by
  have first : (Function.update st.termHead src (some term)) src = some term := Function.update_self ..
  have owned : st.termOwner term = some src := (draining.chains.owner src term).1 (draining.chains.head_mem first)
  have onTerm := termLive_of_owner owned
  obtain ⟨cterm, hterm⟩ := Option.isSome_iff_exists.1 onTerm
  have next : st.termNext term = cterm.netNext := by simp [termNext,hterm]
  obtain ⟨st₁, run, links⟩ := netAddTerm_spec onNet onTerm
  have onTerm₁ : (st₁.terms term).isSome := by rw [links.moved.termLive]; exact onTerm
  obtain ⟨cterm₁, hterm₁⟩ := Option.isSome_iff_exists.1 onTerm₁
  have data₁ : cterm₁.unlinked = cterm.unlinked := by
    have same := congrFun links.moved.data term
    simpa [termData,hterm,hterm₁] using same
  have next₁ : cterm₁.netNext = st.termHead net := by
    have same := congrFun links.next term
    simpa [termNext,hterm₁] using same
  have popped : Chains (Function.update st.termHead src cterm.netNext) st.termNext
    (Function.update st.termOwner term none)
      (Function.update termList src (termList src).tail) :=
    draining.chains.pop first (fun n => by by_cases eq : n = src <;> simp [eq,next]) fun t => by
      simp [Function.update_apply]
  have headNet : (Function.update st.termHead src cterm.netNext) net = st.termHead net :=
    Function.update_of_ne distinct ..
  refine ⟨st₁, cterm, hterm, run, st₁.setTerm term (some { cterm₁ with net := some net }), modifyTerm_some hterm₁, ?_,
    links.drvrs,
    fun t => ?_, ?_, fun t n owned' => ?_⟩
  · exact links.moved.toTermFrame.trans ⟨rfl, rfl, rfl, rfl, rfl, rfl⟩
  · by_cases eq : t = term
    · subst eq
      rw [termData_setTerm,if_pos rfl,if_pos rfl]
      simp only [termData,hterm,Option.map_some]
      rw [show ({ cterm₁ with net := some net } : ConcreteTerm).unlinked =
        { cterm₁.unlinked with net := some net } from rfl,data₁]
    · simp [eq,links.moved.data]
  · refine popped.push (Function.update_self ..) (fun n => ?_) (fun t => ?_) fun t => ?_
    · rw [termHead_setTerm,links.head]
      by_cases isSrc : n = src
      · simp [isSrc,Ne.symm distinct]
      · by_cases eq : n = net <;> simp [isSrc,eq,distinct]
    · rw [headNet,termNext_setTerm,links.next]
      by_cases eq : t = term <;> simp [eq,next₁]
    · rw [termOwner_setTerm,links.moved.termOwner]
      by_cases eq : t = term <;> simp [eq]
  · rw [netLive_setTerm,links.moved.live]
    rw [termOwner_setTerm,links.moved.termOwner] at owned'
    by_cases eq : t = term
    · simp only [eq,if_true,Option.bind_some,Option.some.injEq] at owned'
      exact owned' ▸ onNet
    · simp only [eq,if_false] at owned'
      exact draining.live t n owned'

theorem TermDraining.mergeTerms {fuel : ℕ} {rest : List ℕ} (draining : TermDraining st src cur termList)
    (distinct : net ≠ src) (onNet : st.netLive net) (left : termList src = rest) (enough : rest.length ≤ fuel) :
    ∃ st' termList', ConcreteNetwork.mergeTerms net fuel cur st = some st' ∧ TermFrame st st' ∧
    st'.netDrvrPinMap = st.netDrvrPinMap ∧
      (∀ t, st'.termData t = if t ∈ rest then (st.termData t).map fun c => { c with net := some net }
        else st.termData t) ∧
      TermDraining st' src none termList' := by
  induction rest generalizing fuel st cur termList with
  | nil =>
    have list := draining.chains.chain src
    rw [Function.update_self,left] at list
    cases list
    refine ⟨st, termList, ?_, ⟨rfl, rfl, rfl, rfl, rfl, rfl⟩, rfl, by simp, draining⟩
    cases fuel <;> rfl
  | cons term rest ih =>
    have list := draining.chains.chain src
    rw [Function.update_self,left] at list
    obtain ⟨rfl, _⟩ := list
    cases fuel with
    | zero => simp at enough
    | succ fuel =>
      obtain ⟨st₁, cterm, hterm, run, st₂, set, frame, drvrs, data, draining₂⟩ := draining.move distinct onNet
      have left₂ : (Function.update (Function.update termList src (termList src).tail) net
          (term :: (Function.update termList src (termList src).tail) net)) src = rest := by
        rw [Function.update_of_ne (Ne.symm distinct),Function.update_self,left,List.tail_cons]
      obtain ⟨st', termList', run', frame', drvrs', data', draining'⟩ :=
        ih draining₂ (by rw [frame.live]; exact onNet) left₂ (Nat.le_of_succ_le_succ enough)
      refine ⟨st', termList', ?_, frame.trans frame', drvrs'.trans drvrs, fun t => ?_, draining'⟩
      · simp [ConcreteNetwork.mergeTerms,hterm,run,set,run']
      · rw [data',data]
        by_cases eq : t = term <;> by_cases mem : t ∈ rest <;> cases here : st.termData t <;> simp_all

theorem forgetNet_spec {fuel : ℕ} {rest : List ℕ} (list : IsList st.pinNext cur rest)
    (live : ∀ p ∈ rest, (st.pins p).isSome) (enough : rest.length ≤ fuel) :
    ∃ st', forgetNet fuel cur st = some st' ∧ PinFrame st st' ∧ st'.netDrvrPinMap = st.netDrvrPinMap ∧
    st'.nets = st.nets ∧
      st'.pinNext = st.pinNext ∧ st'.pinPrev = st.pinPrev ∧
      ∀ p, st'.pinData p = if p ∈ rest then (st.pinData p).map fun c => { c with net := none } else st.pinData p := by
  induction rest generalizing fuel st cur with
  | nil =>
    cases list
    refine ⟨st, ?_, ⟨rfl, rfl, rfl, rfl, rfl, rfl⟩, rfl, rfl, rfl, rfl, by simp⟩
    cases fuel <;> rfl
  | cons pin rest ih =>
    obtain ⟨rfl, list⟩ := list
    cases fuel with
    | zero => simp at enough
    | succ fuel =>
      obtain ⟨cpin, hpin⟩ := Option.isSome_iff_exists.1 (live pin List.mem_cons_self)
      have next : (st.setPin pin (some { cpin with net := none })).pinNext = st.pinNext := by
        funext p
        rw [pinNext_setPin]
        by_cases eq : p = pin <;> simp [eq,pinNext,hpin]
      have prev : (st.setPin pin (some { cpin with net := none })).pinPrev = st.pinPrev := by
        funext p
        rw [pinPrev_setPin]
        by_cases eq : p = pin <;> simp [eq,pinPrev,hpin]
      have after : st.pinNext pin = cpin.netNext := by simp [pinNext,hpin]
      have live' : ∀ p ∈ rest, ((st.setPin pin (some { cpin with net := none })).pins p).isSome := fun p mem => by
        by_cases eq : p = pin
        · simp [setPin,eq]
        · simpa [setPin,eq] using live p (List.mem_cons_of_mem pin mem)
      rw [after] at list
      have written : PinFrame st (st.setPin pin (some { cpin with net := none })) := ⟨rfl, rfl, rfl, rfl, rfl, rfl⟩
      obtain ⟨st', run, frame, drvrs, nets, next', prev', data⟩ :=
        ih (next ▸ list) live' (Nat.le_of_succ_le_succ enough)
      refine ⟨st', ?_, written.trans frame, drvrs, nets, next'.trans next, prev'.trans prev, fun p => ?_⟩
      · simpa [forgetNet,hpin,modifyPin_some hpin] using run
      · rw [data,pinData_setPin]
        by_cases eq : p = pin <;> by_cases mem : p ∈ rest <;> simp [eq,mem,pinData,hpin,ConcretePin.unlinked]

end Drain

end GTPower.ConcreteNetwork
