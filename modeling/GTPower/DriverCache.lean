import GTPower.NetConnection
import GTPower.ConnectivityLists

/-! The cached drivers of the nets stay the drivers a visit of the connected pins meets, as long as an edit that changes
what a net reaches finds no entry of that net, or follows it up in the only one. -/
namespace GTPower.ConcreteNetwork

open Netlist

section Coherent

variable {N N' : Netlist} {drvrs : ℕ → Option (Finset ℕ)} {n p : ℕ} {driver noTerms : Bool}

/-- Every entry holds the drivers that its net reaches. -/
def Coherent (N : Netlist) (drvrs : ℕ → Option (Finset ℕ)) : Prop :=
  ∀ n entry, drvrs n = some entry → ∀ p, p ∈ entry ↔ N.Reaches n p ∧ N.driver p

def Quiet (N : Netlist) (drvrs : ℕ → Option (Finset ℕ)) (n : ℕ) : Prop := ∀ k, (drvrs k).isSome → ¬N.Connected k n

/-- No net connected to `n` but `n` itself has an entry. -/
def Alone (N : Netlist) (drvrs : ℕ → Option (Finset ℕ)) (n : ℕ) : Prop := ∀ k, k ≠ n → (drvrs k).isSome →
    ¬N.Connected k n

/-- What the entries become when a pin joins or leaves the list of `n`. -/
def patch (drvrs : ℕ → Option (Finset ℕ)) (driver noTerms : Bool) (n : ℕ) (change : Finset ℕ → Finset ℕ) : ℕ →
    Option (Finset ℕ) :=
  if driver then if noTerms then Function.update drvrs n ((drvrs n).map change) else fun _ => none else drvrs

/-- Joining: a pin without a net below is in no entry or only in that of `n`, or all entries go, or nothing near has
one. -/
def AttachMeets (N : Netlist) (drvrs : ℕ → Option (Finset ℕ)) (driver noTerms : Bool) (n p : ℕ) : Prop :=
  N.below p = none ∧ (driver = false ∨ Alone N drvrs n) ∨ driver ∧ noTerms = false ∨
    Quiet N drvrs n ∧ ∀ b, N.below p = some b → Quiet N drvrs b

def DetachMeets (N : Netlist) (drvrs : ℕ → Option (Finset ℕ)) (driver noTerms : Bool) (n p : ℕ) : Prop :=
  N.below p = none ∧ (driver = false ∨ Alone N drvrs n) ∨ driver ∧ noTerms = false ∨ Quiet N drvrs n

/-- A new terminal between the net of `p` and `n`. -/
def TermMeets (N : Netlist) (drvrs : ℕ → Option (Finset ℕ)) (n p : ℕ) : Prop :=
  N.pinNet p = none ∧ N.driver p = false ∨ Quiet N drvrs n ∧ ∀ m, N.pinNet p = some m → Quiet N drvrs m

/-- Entries are left alone where their nets reach the same pins, with the same drivers among them. -/
theorem Coherent.congr (coherent : Coherent N drvrs)
    (same : ∀ k, (drvrs k).isSome → ∀ q, N'.Reaches k q ∧ N'.driver q ↔ N.Reaches k q ∧ N.driver q) :
    Coherent N' drvrs :=
  fun k entry here q => (coherent k entry here q).trans (same k (by simp [here]) q).symm

theorem coherent_clear : Coherent N fun _ => none := fun _ _ here => by cases here

/-- The entries that stay must be right for the new netlist, and the entry of `n` after the change. -/
theorem Coherent.patched {change : Finset ℕ → Finset ℕ} (coherent : Coherent N drvrs)
    (others : ∀ k, (drvrs k).isSome → (driver → noTerms ∧ k ≠ n) → ∀ q, N'.Reaches k q ∧ N'.driver q ↔ N.Reaches k q ∧
      N.driver q)
    (self : driver → noTerms → ∀ old, drvrs n = some old → ∀ q, q ∈ change old ↔ N'.Reaches n q ∧ N'.driver q) :
    Coherent N' (patch drvrs driver noTerms n change) := by
  cases driver with
  | false => exact coherent.congr fun k cached => others k cached (by simp)
  | true =>
    cases noTerms with
    | false => exact coherent_clear
    | true =>
      simp only [patch,if_true]
      intro k entry here q
      by_cases eq : k = n
      · subst eq
        rw [Function.update_self] at here
        obtain ⟨old, cached, rfl⟩ := Option.map_eq_some_iff.1 here
        exact self rfl rfl old cached q
      · rw [Function.update_of_ne eq] at here
        rw [coherent k entry here q]
        exact (others k (by simp [here]) (fun _ => ⟨rfl, eq⟩) q).symm

/-- An entry that stays is of a net apart from `n`, unless the pin does not drive. -/
theorem apart_of_alone {k : ℕ} (alone : driver = false ∨ Alone N drvrs n) (cached : (drvrs k).isSome)
    (stays : driver → noTerms ∧ k ≠ n) : driver = false ∨ ¬N.Connected k n := by
  cases driver with
  | false => exact .inl rfl
  | true =>
    have alone : Alone N drvrs n := alone.resolve_left (by simp)
    exact .inr (alone k (stays rfl).2 cached)

theorem Coherent.attach (coherent : Coherent N drvrs) (free : N.pinNet p = none)
    (known : N.driver p = driver ∨ N.below p = none) (pinNet : N'.pinNet = Function.update N.pinNet p (some n))
    (below : N'.below = N.below) (drivers : N'.driver = Function.update N.driver p driver)
    (meets : AttachMeets N drvrs driver noTerms n p) :
    Coherent N' (patch drvrs driver noTerms n (insert p)) := by
  have unmoved : ∀ k q, (N'.Reaches k q ↔ N.Reaches k q) →
    (N'.Reaches k q ∧ N'.driver q ↔ N.Reaches k q ∧ N.driver q) := by
    intro k q reaches
    by_cases eq : q = p
    · subst eq
      rcases known with same | plain
      · simp [reaches,drivers,same]
      · simp [reaches,not_reaches free plain]
    · simp [reaches,drivers,eq]
  -- nets apart from the net and the one below
  have far : ∀ k, ¬N.Connected k n → (∀ b, N.below p = some b → ¬N.Connected k b) → ∀ q, N'.Reaches k q ↔
    N.Reaches k q := by
    intro k apart apart'
    refine reaches_local (· = p) (fun q ne => ⟨by simp [pinNet,show q ≠ p from ne], by rw [below]⟩) ?_
    rintro _ rfl m touches
    simp only [free,reduceCtorEq,pinNet,Function.update_self,Option.some.injEq,below,false_or] at touches
    rcases touches with under | rfl | under
    · exact apart' m under
    · exact apart
    · exact apart' m under
  apply coherent.patched
  · intro k cached stays q
    rcases meets with ⟨plain, alone⟩ | ⟨drives, terms⟩ | ⟨quiet, quietBelow⟩
    · have reaches := reaches_attach free plain pinNet below k q
      by_cases eq : q = p
      · subst eq
        rcases apart_of_alone alone cached stays with silent | apart
        · simp [drivers,not_reaches free plain,silent]
        · simp [reaches,apart,not_reaches free plain]
      · simp [reaches,eq,drivers]
    · simp [terms] at stays
      exact absurd drives (by simp [stays])
    · exact unmoved k q (far k (quiet k cached) (fun b under => quietBelow b under k cached) q)
  · intro drives noTerm old cached q
    rcases meets with ⟨plain, _⟩ | ⟨_, terms⟩ | ⟨quiet, _⟩
    · rw [Finset.mem_insert,coherent n old cached q,reaches_attach free plain pinNet below n q]
      by_cases eq : q = p
      · subst eq
        simpa [drivers,drives] using .inr Relation.ReflTransGen.refl
      · simp [eq,drivers]
    · simp [terms] at noTerm
    · exact absurd .refl (quiet n (by simp [cached]))

theorem Coherent.detach (coherent : Coherent N drvrs) (on : N.pinNet p = some n) (isDriver : N.driver p = driver)
    (pinNet : N'.pinNet = Function.update N.pinNet p none) (below : N'.below = N.below) (drivers : N'.driver = N.driver)
    (meets : DetachMeets N drvrs driver noTerms n p) : Coherent N' (patch drvrs driver noTerms n (·.erase p)) := by
  have free : N'.pinNet p = none := by simp [pinNet]
  have back : N.pinNet = Function.update N'.pinNet p (some n) := by
    rw [pinNet,Function.update_idem,← on,Function.update_eq_self]
  have far : ∀ k, ¬N.Connected k n → ∀ q, N'.Reaches k q ↔ N.Reaches k q := by
    intro k apart
    have under : ∀ m, N.below p = some m → ¬N.Connected k m := fun m under reach => by
      have joins : N.Joins n m := ⟨p, on, under⟩
      exact apart (.tail reach (.inr joins))
    refine reaches_local (· = p) (fun q ne => ⟨by simp [pinNet,show q ≠ p from ne], by rw [below]⟩) ?_
    rintro _ rfl m touches
    simp only [on,Option.some.injEq,free,below,reduceCtorEq,false_or] at touches
    rcases touches with rfl | touches | touches
    · exact apart
    · exact under m touches
    · exact under m touches
  have reaches : N.below p = none → ∀ k q, N.Reaches k q ↔ N'.Reaches k q ∨ q = p ∧ N'.Connected k n := fun plain k q =>
    reaches_attach free (below ▸ plain) back below.symm k q
  apply coherent.patched
  · intro k cached stays q
    rcases meets with ⟨plain, alone⟩ | ⟨drives, terms⟩ | quiet
    · rcases apart_of_alone alone cached stays with silent | apart
      · by_cases eq : q = p
        · subst eq
          simp [drivers,isDriver,silent]
        · simp [reaches plain k q,eq,drivers]
      · rw [far k apart q,drivers]
    · simp [terms] at stays
      exact absurd drives (by simp [stays])
    · rw [far k (quiet k cached) q,drivers]
  · intro _ noTerm old cached q
    rcases meets with ⟨plain, _⟩ | ⟨_, terms⟩ | quiet
    · rw [Finset.mem_erase,coherent n old cached q,reaches plain n q]
      by_cases eq : q = p
      · subst eq
        have gone : ¬N'.Reaches n q := not_reaches free (below ▸ plain)
        simp [gone]
      · simp [eq,drivers]
    · simp [terms] at noTerm
    · exact absurd .refl (quiet n (by simp [cached]))

theorem Coherent.setBelow (x : Option ℕ) (coherent : Coherent N drvrs) (plain : N.below p = none)
    (pinNet : N'.pinNet = N.pinNet) (below : N'.below = Function.update N.below p x) (drivers : N'.driver = N.driver)
    (meets : ∀ n, x = some n → TermMeets N drvrs n p) :
    Coherent N' drvrs := by
  refine coherent.congr fun k cached q => ?_
  rw [drivers]
  cases x with
  | none =>
    have same : N'.below = N.below := by rw [below,← plain,Function.update_eq_self]
    have reaches : N'.Reaches k q ↔ N.Reaches k q :=
      reaches_local (fun _ => False) (fun q _ => ⟨by rw [pinNet], by rw [same]⟩)
      (fun _ no => no.elim) q
    rw [reaches]
  | some n =>
    rcases meets n rfl with ⟨free, silent⟩ | ⟨quiet, quietNet⟩
    · by_cases eq : q = p
      · subst eq
        simp [silent]
      · rw [reaches_below free pinNet (fun r ne => by simp [below, ne]) eq k]
    · have apart : ∀ r, r = p → ∀ m, N.pinNet r = some m ∨ N.below r = some m ∨ N'.pinNet r = some m ∨
        N'.below r = some m →
          ¬N.Connected k m := by
        rintro _ rfl m touches
        simp only [plain,reduceCtorEq,pinNet,below,Function.update_self,Option.some.injEq,false_or] at touches
        rcases touches with on | on | rfl
        · exact quietNet m on k cached
        · exact quietNet m on k cached
        · exact quiet k cached
      rw [reaches_local (· = p) (fun q ne => ⟨by rw [pinNet], by simp [below, show q ≠ p from ne]⟩) apart q]

theorem Coherent.deleteNet (coherent : Coherent N drvrs) (pinNet : N'.pinNet = redirect n none N.pinNet)
    (below : N'.below = N.below)
    (drivers : N'.driver = N.driver) (meets : Alone N drvrs n) : Coherent N' (Function.update drvrs n none) := by
  intro k entry here q
  have self : k ≠ n := by
    rintro rfl
    simp at here
  rw [Function.update_of_ne self] at here
  have apart := meets k self (by simp [here])
  have reaches : N'.Reaches k q ↔ N.Reaches k q := by
    refine reaches_local (fun p => N.pinNet p = some n) (fun p off =>
      ⟨by simp [pinNet,redirect,off], by rw [below]⟩) ?_ q
    intro p on m touches
    have under : N.below p = some m → ¬N.Connected k m := fun under reach => by
      have joins : N.Joins n m := ⟨p, on, under⟩
      exact apart (.tail reach (.inr joins))
    have off : N'.pinNet p = none := by simp [pinNet,redirect,on]
    simp only [on,Option.some.injEq,off,below,reduceCtorEq,false_or] at touches
    rcases touches with rfl | touches | touches
    · exact apart
    · exact under touches
    · exact under touches
  rw [coherent k entry here q,reaches,drivers]

end Coherent

section Calls

inductive Call
  | edit (edit : Edit)
  | drivers (net : ℕ)

def call (st : ConcreteNetwork) : Call → Option ConcreteNetwork
  | .edit edit => st.step edit
  | .drivers net => (st.drivers net).map (·.2)

def ValidCall (st : ConcreteNetwork) : Call → Prop
  | .edit edit => Valid st edit
  | .drivers net => st.netLive net

variable {st st' : ConcreteNetwork} {net pin inst : ℕ} {port : ConcretePort}

def OffMeets (st : ConcreteNetwork) (pin : ℕ) : Prop :=
  ∀ n, st.pinOwner pin = some n →
    DetachMeets st.netlist st.netDrvrPinMap (st.isDriver pin) (decide (st.termHead n = none)) n pin

/-- The edits of the wires; a cell is not replaced. A pin that is deleted or gets a terminal has none, nor does a net
that is deleted have terminals. The nets near a change have no entries, or only the one that is updated. -/
def DriversMeet (st : ConcreteNetwork) : Call → Prop
  | .drivers _ => True
  | .edit (.makeInstance _) => True
  | .edit .makeNet => True
  | .edit (.makePin inst port net) => ∀ n, net = some n →
      AttachMeets st.netlist st.netDrvrPinMap (st.drives inst port) (decide (st.termHead n = none)) n st.objectId
  | .edit (.makeTerm pin net) => st.pinTerm pin = none ∧ ∀ n, net = some n → TermMeets st.netlist st.netDrvrPinMap n pin
  | .edit (.connect inst port net) => ∀ p driver, ConnectedTo st inst port p driver →
      OffMeets st p ∧ (st.topInstance = some inst → st.pinTerm p = none) ∧ ∀ n, net = some n →
        if st.topInstance = some inst then TermMeets { st.netlist with
            pinNet := Function.update st.pinOwner p none, driver :=
              Function.update st.isDriver p driver } (st.detachedDrvrs p) n p
        else AttachMeets { st.netlist with pinNet := Function.update st.pinOwner p none } (st.detachedDrvrs p) driver
            (decide (st.termHead n = none)) n p
  | .edit (.disconnectPin pin) => ∀ i, st.pinInst pin = some i → st.topInstance ≠ some i → OffMeets st pin
  | .edit (.deletePin pin) => st.pinTerm pin = none ∧ OffMeets st pin
  | .edit (.mergeInto _ _) => True
  | .edit (.deleteNet net) => st.termHead net = none ∧ Alone st.netlist st.netDrvrPinMap net
  | .edit (.replaceCell _ _) => False

theorem drvrsAfter_eq {driver : Bool} {n : ℕ} {change : Finset ℕ → Finset ℕ} :
    st.drvrsAfter driver n change = patch st.netDrvrPinMap driver (decide (st.termHead n = none)) n change := by
  simp only [drvrsAfter,updatedDrvrs,patch,decide_eq_true_eq]

theorem Coherent.off (coherent : Coherent st.netlist st.netDrvrPinMap) (meets : OffMeets st pin) :
    Coherent { st.netlist with pinNet := Function.update st.pinOwner pin none } (st.detachedDrvrs pin) := by
  cases on : st.pinOwner pin with
  | none =>
    have same : Function.update st.pinOwner pin none = st.pinOwner := by rw [← on,Function.update_eq_self]
    rw [same]
    simp only [detachedDrvrs,on]
    exact coherent
  | some n =>
    simp only [detachedDrvrs,on,drvrsAfter_eq]
    exact coherent.detach on rfl rfl rfl rfl (meets n on)

theorem below_term {N N' : Netlist} {t : ℕ} {net : Option ℕ} (noPin : ∀ q, N.pinTerm q ≠ some t)
    (pinTerm : N'.pinTerm = Function.update N.pinTerm pin (some t))
    (termNet : N'.termNet = Function.update N.termNet t net) :
    N'.below = Function.update N.below pin net := by
  funext q
  by_cases eq : q = pin
  · simp [Netlist.below,pinTerm,termNet,eq]
  · simp only [Netlist.below,pinTerm,Function.update_of_ne eq,termNet]
    cases has : N.pinTerm q with
    | none => rfl
    | some s =>
      have ne : s ≠ t := fun eq => noPin q (eq ▸ has)
      simp [ne]

theorem Refs.noTerm (refs : Refs st) {a : ℕ} (beyond : st.objectId ≤ a) (q : ℕ) : st.pinTerm q ≠ some a := by
  intro has
  have onPin := (refs.refers a q).2 has
  simp [termPin,(refs.fresh a beyond).2.1] at onPin

theorem Coherent.redrive {N : Netlist} {drvrs : ℕ → Option (Finset ℕ)} (driver : Bool) (coherent : Coherent N drvrs)
    (free : N.pinNet pin = none) (plain : N.below pin = none) :
    Coherent { N with driver := Function.update N.driver pin driver } drvrs := by
  refine coherent.congr fun k _ q => ?_
  have reaches : ({ N with driver := Function.update N.driver pin driver } : Netlist).Reaches k q ↔
    N.Reaches k q := Iff.rfl
  by_cases eq : q = pin
  · have out : ¬N.Reaches k q := eq ▸ not_reaches free plain
    simp [reaches,out]
  · simp [reaches,eq]

theorem Coherent.dropTerm {N : Netlist} {drvrs : ℕ → Option (Finset ℕ)} {t : ℕ} {termPin : ℕ → Option ℕ}
    (coherent : Coherent N drvrs) (has : N.pinTerm pin = some t) (noNet : N.termNet t = none) :
    Coherent { N with
      pinTerm := Function.update N.pinTerm pin none
      termNet := Function.update N.termNet t none
      termPin := termPin } drvrs := by
  have termNet : Function.update N.termNet t none = N.termNet := by rw [← noNet,Function.update_eq_self]
  have plain : N.below pin = none := by simp [Netlist.below,has,noNet]
  refine coherent.setBelow none plain rfl ?_ rfl (by simp)
  funext q
  simp only [Netlist.below,termNet]
  by_cases eq : q = pin
  · simp [eq]
  · simp [eq,Netlist.below]

theorem ConnectedTo.known {driver : Bool} (isPin : ConnectedTo st inst port pin driver) (refs : Refs st) :
    st.isDriver pin = driver ∨ st.netlist.below pin = none := by
  obtain ⟨cinst, _, found⟩ := isPin
  cases here : cinst.findPin port with
  | some q =>
    rw [here] at found
    obtain ⟨rfl, rfl⟩ := found
    exact .inl rfl
  | none =>
    rw [here] at found
    obtain ⟨rfl, _⟩ := found
    obtain ⟨noTerm, _⟩ := refs.noPin (le_refl st.objectId)
    exact .inr (by simp [Netlist.below,ConcreteNetwork.netlist,noTerm])

theorem Coherent.drivers (inv : Inv st) (coherent : Coherent st.netlist st.netDrvrPinMap) (onNet : st.netLive net) :
    ∃ drvrs st' pins, st.drivers net = some (drvrs, st') ∧ st.connectedPins net = some pins ∧
      (∀ p, p ∈ drvrs ↔ p ∈ pins ∧ st.isDriver p) ∧ Inv st' ∧ Coherent st'.netlist st'.netDrvrPinMap := by
  obtain ⟨pins, met, reaches⟩ := inv.connectedPins onNet
  cases cached : st.netDrvrPinMap net with
  | some drvrs =>
    refine ⟨drvrs, st, pins, by simp [ConcreteNetwork.drivers,cached], met, fun p => ?_, inv, coherent⟩
    rw [coherent net drvrs cached p,reaches]
    rfl
  | none =>
    have entry : ∀ p, p ∈ (pins.filter st.isDriver).toFinset ↔ st.netlist.Reaches net p ∧
      st.netlist.driver p := fun p => by
      rw [List.mem_toFinset,List.mem_filter,reaches]
      rfl
    let found := (pins.filter st.isDriver).toFinset
    let map := Function.update st.netDrvrPinMap net (some found)
    refine ⟨found, { st with netDrvrPinMap := map }, pins, by
      simp [ConcreteNetwork.drivers,cached,met,found,map], met, fun p => ?_, ?_, ?_⟩
    · rw [entry,reaches]
      rfl
    · obtain ⟨pinList, termList, threaded⟩ := inv.threaded
      exact ⟨⟨pinList, termList, threaded.setDrvrs _⟩, inv.refs.congr ⟨rfl, rfl, rfl, rfl, rfl, rfl⟩ fun _ => id⟩
    · intro k held here p
      change map k = some held at here
      simp only [map] at here
      by_cases self : k = net
      · subst self
        rw [Function.update_self,Option.some.injEq] at here
        subst here
        exact entry p
      · rw [Function.update_of_ne self] at here
        exact coherent k held here p

theorem Coherent.makePin (inv : Inv st) (coherent : Coherent st.netlist st.netDrvrPinMap) {onNet : Option ℕ}
    (valid : ValidCall st (.edit (.makePin inst port onNet)))
    (meets : DriversMeet st (.edit (.makePin inst port onNet))) :
    ∃ st', st.makePin inst port onNet = some st' ∧ Inv st' ∧ Coherent st'.netlist st'.netDrvrPinMap := by
  obtain ⟨onInst, isBit, live⟩ := valid
  obtain ⟨index, isBit⟩ := Option.isSome_iff_exists.1 isBit
  obtain ⟨st', run, inv', _, netlist, drvrs⟩ := inv.makePin onInst isBit live
  obtain ⟨noTerm, free, _⟩ := inv.refs.noPin (le_refl st.objectId)
  have plain : st.netlist.below st.objectId = none := by simp [Netlist.below,ConcreteNetwork.netlist,noTerm]
  refine ⟨st', run, inv', ?_⟩
  rw [netlist,drvrs]
  cases onNet with
  | none =>
    refine coherent.congr fun k _ q => ?_
    have same : Function.update st.pinOwner st.objectId none = st.pinOwner := by rw [← free,Function.update_eq_self]
    rw [same]
    by_cases eq : q = st.objectId
    · have out : ∀ d, ¬({ st.netlist with pinNet := st.pinOwner, driver := d } : Netlist).Reaches k q :=
        fun d => eq ▸ not_reaches free plain
      exact ⟨fun reach => absurd reach.1 (out _), fun reach => absurd reach.1 (out _)⟩
    · simp only [Function.update_of_ne eq]
      rfl
  | some n =>
    simp only [drvrsAfter_eq]
    exact coherent.attach free (.inr plain) rfl rfl rfl (meets n rfl)

theorem Coherent.makeTerm (inv : Inv st) (coherent : Coherent st.netlist st.netDrvrPinMap) {onNet : Option ℕ}
    (valid : ValidCall st (.edit (.makeTerm pin onNet))) (meets : DriversMeet st (.edit (.makeTerm pin onNet))) :
    ∃ st', st.makeTerm pin onNet = some st' ∧ Inv st' ∧ Coherent st'.netlist st'.netDrvrPinMap := by
  obtain ⟨noTerm, meets⟩ := meets
  obtain ⟨st', run, inv', _, netlist, drvrs⟩ := inv.makeTerm valid.1 valid.2 noTerm
  refine ⟨st', run, inv', ?_⟩
  rw [netlist,drvrs]
  have plain : st.netlist.below pin = none := by simp [Netlist.below,ConcreteNetwork.netlist,noTerm]
  refine coherent.setBelow onNet plain rfl ?_ rfl meets
  exact below_term (inv.refs.noTerm (le_refl st.objectId)) rfl rfl

theorem Coherent.connect (inv : Inv st) (coherent : Coherent st.netlist st.netDrvrPinMap) {onNet : Option ℕ}
    (valid : ValidCall st (.edit (.connect inst port onNet)))
    (meets : DriversMeet st (.edit (.connect inst port onNet))) :
    ∃ st', st.connect inst port onNet = some st' ∧ Inv st' ∧ Coherent st'.netlist st'.netDrvrPinMap := by
  obtain ⟨onInst, isBit, live, needs⟩ := valid
  obtain ⟨index, isBit⟩ := Option.isSome_iff_exists.1 isBit
  have noTerm : st.topInstance = some inst → ∀ cinst p, st.instances inst = some cinst → cinst.findPin port = some p →
      st.pinTerm p = none := fun top cinst p here found =>
    (meets p (st.isDriver p) ⟨cinst, here, by simp [found]⟩).2.1 top
  obtain ⟨st', p, run, inv', _, isPin, spec⟩ := inv.connect onInst isBit live needs noTerm
  refine ⟨st', run, inv', ?_⟩
  obtain ⟨off, noTerm, meets⟩ := meets p _ isPin
  have coherent := coherent.off off
  have known := isPin.known inv.refs
  by_cases top : st.topInstance = some inst
  · simp only [top,if_true] at spec
    obtain ⟨⟨t, noPin, _, netlist⟩, drvrs⟩ := spec
    have plain : st.netlist.below p = none := by simp [Netlist.below,ConcreteNetwork.netlist,noTerm top]
    have coherent := coherent.redrive (st'.isDriver p) (by simp) plain
    rw [netlist,drvrs]
    refine coherent.setBelow onNet plain rfl ?_ rfl fun n eq => ?_
    · exact below_term (fun q has => by simp [(inv.refs.refers t q).2 has] at noPin) rfl rfl
    · have meets := meets n eq
      rw [if_pos top] at meets
      exact meets
  · simp only [top,if_false] at spec
    obtain ⟨netlist, n, rfl, drvrs⟩ := spec
    have meets := meets n rfl
    rw [if_neg top] at meets
    rw [netlist,drvrs,drvrsAfter_eq]
    refine coherent.attach (by simp) known ?_ rfl rfl meets
    simp

theorem Coherent.disconnectPin (inv : Inv st) (coherent : Coherent st.netlist st.netDrvrPinMap)
    (valid : ValidCall st (.edit (.disconnectPin pin))) (meets : DriversMeet st (.edit (.disconnectPin pin))) :
    ∃ st', st.disconnectPin pin = some st' ∧ Inv st' ∧ Coherent st'.netlist st'.netDrvrPinMap := by
  obtain ⟨cpin, hpin⟩ := Option.isSome_iff_exists.1 valid
  obtain ⟨st', run, inv', _, spec⟩ := inv.disconnectPin hpin
  refine ⟨st', run, inv', ?_⟩
  by_cases top : st.topInstance = some cpin.inst
  · simp only [top,if_true] at spec
    cases has : cpin.term with
    | none =>
      simp only [has] at spec
      rw [spec]
      exact coherent
    | some t =>
      simp only [has] at spec
      obtain ⟨netlist, drvrs⟩ := spec
      rw [netlist,drvrs]
      split
      · next noNet => exact coherent.dropTerm ((pinTerm_of_pins hpin).trans has) noNet
      · exact coherent_clear
  · simp only [top,if_false] at spec
    rw [spec.1,spec.2]
    exact coherent.off (meets cpin.inst (pinInst_of_pins hpin) top)

theorem Coherent.call (inv : Inv st) (coherent : Coherent st.netlist st.netDrvrPinMap) {made : Call}
    (valid : ValidCall st made) (meets : DriversMeet st made) : ∃ st', st.call made = some st' ∧ Inv st' ∧
    Coherent st'.netlist st'.netDrvrPinMap := by
  cases made with
  | drivers net =>
    obtain ⟨drvrs, st', pins, run, _, _, inv', coherent'⟩ := coherent.drivers inv valid
    exact ⟨st', by simp [ConcreteNetwork.call,run], inv', coherent'⟩
  | edit edit =>
    cases edit with
    | makeInstance cell =>
      obtain ⟨inv', _, netlist, drvrs⟩ := inv.makeInstance cell
      exact ⟨_, rfl, inv', by rw [netlist,drvrs]; exact coherent⟩
    | makeNet =>
      obtain ⟨inv', _, netlist, drvrs⟩ := inv.makeNet
      exact ⟨_, rfl, inv', by rw [netlist,drvrs]; exact coherent⟩
    | makePin inst port net => exact coherent.makePin inv valid meets
    | makeTerm pin net => exact coherent.makeTerm inv valid meets
    | connect inst port net => exact coherent.connect inv valid meets
    | disconnectPin pin => exact coherent.disconnectPin inv valid meets
    | deletePin pin =>
      obtain ⟨cpin, hpin⟩ := Option.isSome_iff_exists.1 valid
      obtain ⟨noTerm, off⟩ := meets
      obtain ⟨st', run, inv', _, netlist, drvrs⟩ := inv.deletePin hpin ((pinTerm_of_pins hpin).symm.trans noTerm)
      refine ⟨st', run, inv', ?_⟩
      rw [netlist,drvrs]
      exact (coherent.off off).redrive false (by simp) (by simp [Netlist.below,ConcreteNetwork.netlist,noTerm])
    | mergeInto net intoNet =>
      obtain ⟨distinct, onNet, onInto⟩ := valid
      obtain ⟨st', run, inv', _, _, drvrs⟩ := inv.mergeInto distinct onNet onInto
      refine ⟨st', run, inv', ?_⟩
      rw [drvrs]
      exact coherent_clear
    | deleteNet net =>
      obtain ⟨cnet, hnet⟩ := Option.isSome_iff_exists.1 valid
      obtain ⟨noTerms, alone⟩ := meets
      obtain ⟨st', run, inv', _, netlist, drvrs⟩ := inv.deleteNet hnet (by simpa [termHead,hnet] using noTerms)
      refine ⟨st', run, inv', ?_⟩
      rw [netlist,drvrs]
      exact coherent.deleteNet rfl rfl rfl alone
    | replaceCell inst cell => exact meets.elim

/-- Along a run that meets the conditions the drivers of a net are the drivers that the visit of it meets. -/
theorem drivers_exact (top : Option ConcreteCell) (calls : List Call)
    (meets : Along call (fun st made => ValidCall st made ∧ DriversMeet st made) (initial top) calls) :
    ∃ st, calls.foldlM call (initial top) = some st ∧ ∀ n, st.netLive n →
    ∃ drvrs st' pins, st.drivers n = some (drvrs, st') ∧
      st.connectedPins n = some pins ∧ ∀ p, p ∈ drvrs ↔ p ∈ pins ∧ st.isDriver p := by
  have one : ∀ st made, Inv st ∧ Coherent st.netlist st.netDrvrPinMap → ValidCall st made ∧ DriversMeet st made →
      ∃ st', st.call made = some st' ∧ Inv st' ∧ Coherent st'.netlist st'.netDrvrPinMap :=
    fun st made kept here => kept.2.call kept.1 here.1 here.2
  have empty : Coherent (initial top).netlist (initial top).netDrvrPinMap := by cases top <;> exact coherent_clear
  obtain ⟨st, run, inv, coherent⟩ := meets.invariant one ⟨(inv_initial top).1, empty⟩
  refine ⟨st, run, fun n onNet => ?_⟩
  obtain ⟨drvrs, st', pins, query, met, same, _⟩ := coherent.drivers inv onNet
  exact ⟨drvrs, st', pins, query, met, same⟩

def leafCell (direction : PortDirection) : ConcreteCell := ⟨[bitPort "a" 0 direction], 1, true⟩

/-- A driver joins net 4 after the drivers of net 3, which is under the other pin of net 4, were asked for. -/
def joinAbove : List Call :=
  [.edit (.makeInstance (leafCell .output)), .edit (.makeInstance (onePortCell .input)), .edit .makeNet, .edit .makeNet,
    .edit (.connect 2 (bitPort "a" 0 .input) (some 4)), .edit (.makeTerm 5 (some 3)), .drivers 3,
    .edit (.connect 1 (bitPort "a" 0 .output) (some 4))]

/-- Net 4 has no terminal, so that the entry of net 3 is kept. -/
theorem joinAbove_stale :
    Along call ValidCall (initial none) joinAbove ∧
      ∃ st, joinAbove.foldlM call (initial none) = some st ∧ st.netLive 3 ∧
        ∃ drvrs st' pins, st.drivers 3 = some (drvrs, st') ∧
        st.connectedPins 3 = some pins ∧ 7 ∉ drvrs ∧ 7 ∈ pins ∧ st.isDriver 7 := by
  have leaf : (initial none).topInstance ≠ some 1 := by simp [initial]
  refine ⟨⟨trivial, ?_⟩, _, rfl, rfl, _, _, _, rfl, rfl, by decide, by decide, rfl⟩
  rintro _ ⟨⟩
  refine ⟨trivial, ?_⟩
  rintro _ ⟨⟩
  refine ⟨trivial, ?_⟩
  rintro _ ⟨⟩
  refine ⟨trivial, ?_⟩
  rintro _ ⟨⟩
  refine ⟨⟨rfl, rfl, by rintro _ ⟨⟩; rfl, fun _ => rfl⟩, ?_⟩
  rintro _ ⟨⟩
  refine ⟨⟨rfl, by rintro _ ⟨⟩; rfl⟩, ?_⟩
  rintro _ ⟨⟩
  refine ⟨rfl, ?_⟩
  rintro _ ⟨⟩
  refine ⟨⟨rfl, rfl, by rintro _ ⟨⟩; rfl, fun _ => rfl⟩, ?_⟩
  rintro _ ⟨⟩
  trivial

/-- The entry of a net follows a pin that joins it. -/
theorem drivers_exact_connect :
    ∃ st, [.edit (.makeInstance (leafCell .output)), .edit .makeNet, .drivers 2,
        .edit (.connect 1 (bitPort "a" 0 .output) (some 2))].foldlM call (initial none) = some st ∧
      ∀ n, st.netLive n → ∃ drvrs st' pins, st.drivers n = some (drvrs, st') ∧ st.connectedPins n = some pins ∧
        ∀ p, p ∈ drvrs ↔ p ∈ pins ∧ st.isDriver p := by
  refine drivers_exact none [.edit (.makeInstance (leafCell .output)), .edit .makeNet, .drivers 2,
    .edit (.connect 1 (bitPort "a" 0 .output) (some 2))] ⟨⟨trivial, trivial⟩, ?_⟩
  rintro _ ⟨⟩
  refine ⟨⟨trivial, trivial⟩, ?_⟩
  rintro _ ⟨⟩
  refine ⟨⟨rfl, trivial⟩, ?_⟩
  rintro _ ⟨⟩
  refine ⟨⟨⟨rfl, rfl, by rintro _ ⟨⟩; rfl, fun _ => rfl⟩, ?_⟩, ?_⟩
  · rintro p driver ⟨cinst, ⟨⟩, rfl, rfl⟩
    refine ⟨by rintro _ ⟨⟩, by rintro ⟨⟩, ?_⟩
    rintro _ ⟨⟩
    refine .inl ⟨rfl, .inr fun k other cached => ?_⟩
    change ((Function.update (fun _ => none) 2 _ : ℕ → Option (Finset ℕ)) k).isSome at cached
    simp [Function.update_of_ne other] at cached
  · rintro _ ⟨⟩
    trivial

end Calls

end GTPower.ConcreteNetwork
