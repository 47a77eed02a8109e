import GTPower.NetlistEdits
import GTPower.GraphVisit

/-! Which nets and pins of a netlist are connected through the hierarchy, how that changes when pins change, and that
the visit of the connected pins meets exactly these. -/
namespace GTPower.ConcreteNetwork

namespace Netlist

variable (N : Netlist)

/-- The net below a pin, on the other side of its terminal. -/
def below (p : ℕ) : Option ℕ := (N.pinTerm p).bind N.termNet

/-- A pin on the first net has the second one below. -/
def Joins (n m : ℕ) : Prop := ∃ p, N.pinNet p = some n ∧ N.below p = some m

def Connected : ℕ → ℕ → Prop := Relation.ReflTransGen fun n m => N.Joins n m ∨ N.Joins m n

/-- The pins on a net, and the unconnected pins above it. -/
def Touches (n p : ℕ) : Prop := N.pinNet p = some n ∨ N.pinNet p = none ∧ N.below p = some n

def Reaches (n p : ℕ) : Prop := ∃ m, N.Connected n m ∧ N.Touches m p

variable {N} {N' : Netlist} {n m k p q : ℕ}

/-- Nets that are apart from every changed pin, before and after, keep what they reach. -/
theorem reaches_local (changed : ℕ → Prop) (same : ∀ q, ¬changed q → N'.pinNet q = N.pinNet q ∧ N'.below q = N.below q)
    (apart : ∀ p, changed p → ∀ n, N.pinNet p = some n ∨ N.below p = some n ∨ N'.pinNet p = some n ∨
      N'.below p = some n → ¬N.Connected k n) (q : ℕ) : N'.Reaches k q ↔ N.Reaches k q := by
  -- a net in reach of `k` has the same neighbours and the same pins
  have joins : ∀ n, N.Connected k n → ∀ m, (N'.Joins n m ∨ N'.Joins m n) ↔ (N.Joins n m ∨ N.Joins m n) := by
    intro n reach m
    have kept : ∀ p, N.pinNet p = some n ∨ N.below p = some n ∨ N'.pinNet p = some n ∨ N'.below p = some n →
      ¬changed p :=
      fun p touches isChanged => apart p isChanged n touches reach
    constructor
    · rintro (⟨p, on, under⟩ | ⟨p, on, under⟩)
      · obtain ⟨net, below⟩ := same p (kept p (.inr (.inr (.inl on))))
        exact .inl ⟨p, net ▸ on, below ▸ under⟩
      · obtain ⟨net, below⟩ := same p (kept p (.inr (.inr (.inr under))))
        exact .inr ⟨p, net ▸ on, below ▸ under⟩
    · rintro (⟨p, on, under⟩ | ⟨p, on, under⟩)
      · obtain ⟨net, below⟩ := same p (kept p (.inl on))
        exact .inl ⟨p, net.trans on, below.trans under⟩
      · obtain ⟨net, below⟩ := same p (kept p (.inr (.inl under)))
        exact .inr ⟨p, net.trans on, below.trans under⟩
  have touches : ∀ n, N.Connected k n → (N'.Touches n q ↔ N.Touches n q) := by
    intro n reach
    have kept : (N.pinNet q = some n ∨ N.below q = some n ∨ N'.pinNet q = some n ∨ N'.below q = some n) → ¬changed q :=
      fun touches isChanged => apart q isChanged n touches reach
    constructor
    · rintro (on | ⟨off, under⟩)
      · exact .inl ((same q (kept (.inr (.inr (.inl on))))).1 ▸ on)
      · obtain ⟨net, below⟩ := same q (kept (.inr (.inr (.inr under))))
        exact .inr ⟨net ▸ off, below ▸ under⟩
    · rintro (on | ⟨off, under⟩)
      · exact .inl ((same q (kept (.inl on))).1.trans on)
      · obtain ⟨net, below⟩ := same q (kept (.inr (.inl under)))
        exact .inr ⟨net.trans off, below.trans under⟩
  have connected : ∀ n, N'.Connected k n ↔ N.Connected k n := by
    intro n
    constructor
    · intro reach
      induction reach with
      | refl => exact .refl
      | tail _ step ih => exact .tail ih ((joins _ ih _).1 step)
    · intro reach
      induction reach with
      | refl => exact .refl
      | tail before step ih => exact .tail ih ((joins _ before _).2 step)
  constructor
  · rintro ⟨n, reach, touch⟩
    have reach' := (connected n).1 reach
    exact ⟨n, reach', (touches n reach').1 touch⟩
  · rintro ⟨n, reach, touch⟩
    exact ⟨n, (connected n).2 reach, (touches n reach).2 touch⟩

theorem not_reaches (free : N.pinNet p = none) (plain : N.below p = none) : ¬N.Reaches k p := by
  rintro ⟨n, _, on | ⟨_, under⟩⟩
  · simp [free] at on
  · simp [plain] at under

/-- A pin with no net below comes into reach of the nets connected to its net. -/
theorem reaches_attach (free : N.pinNet p = none) (plain : N.below p = none)
    (pinNet : N'.pinNet = Function.update N.pinNet p (some n)) (below : N'.below = N.below) (k q : ℕ) :
    N'.Reaches k q ↔ N.Reaches k q ∨ q = p ∧ N.Connected k n := by
  have joins : N'.Joins = N.Joins := by
    funext a b
    refine propext ⟨fun ⟨r, on, under⟩ => ⟨r, ?_, below ▸ under⟩, fun ⟨r, on, under⟩ =>
      ⟨r, ?_, by rw [below]; exact under⟩⟩
    · have ne : r ≠ p := fun eq => by simp [below,eq,plain] at under
      simpa [pinNet,ne] using on
    · have ne : r ≠ p := fun eq => by simp [eq,free] at on
      simpa [pinNet,ne] using on
  have connected : N'.Connected = N.Connected := by simp only [Connected,joins]
  have touches : ∀ a, N'.Touches a q ↔ N.Touches a q ∨ q = p ∧ a = n := by
    intro a
    by_cases eq : q = p
    · simp only [Touches,pinNet,below,eq,Function.update_self,Option.some.injEq,plain,free,reduceCtorEq,or_false,
        false_or,true_and,and_false]
      exact eq_comm
    · simp [Touches,pinNet,below,eq]
  constructor
  · rintro ⟨a, reach, touch⟩
    rw [connected] at reach
    rcases (touches a).1 touch with touch | ⟨rfl, rfl⟩
    · exact .inl ⟨a, reach, touch⟩
    · exact .inr ⟨rfl, reach⟩
  · rintro (⟨a, reach, touch⟩ | ⟨rfl, reach⟩)
    · exact ⟨a, connected ▸ reach, (touches a).2 (.inl touch)⟩
    · exact ⟨n, connected ▸ reach, (touches n).2 (.inr ⟨rfl, rfl⟩)⟩

/-- Only the pin itself comes into reach when a pin on no net gets a net below. -/
theorem reaches_below (free : N.pinNet p = none) (pinNet : N'.pinNet = N.pinNet)
    (below : ∀ r, r ≠ p → N'.below r = N.below r) (ne : q ≠ p) (k : ℕ) : N'.Reaches k q ↔ N.Reaches k q := by
  have joins : N'.Joins = N.Joins := by
    funext a b
    refine propext ⟨fun ⟨r, on, under⟩ => ?_, fun ⟨r, on, under⟩ => ?_⟩
    · rw [pinNet] at on
      have other : r ≠ p := fun eq => by simp [eq,free] at on
      exact ⟨r, on, below r other ▸ under⟩
    · have other : r ≠ p := fun eq => by simp [eq,free] at on
      exact ⟨r, by rw [pinNet]; exact on, (below r other).trans under⟩
  have touches : ∀ a, N'.Touches a q ↔ N.Touches a q := fun a => by simp only [Touches,pinNet,below q ne]
  simp only [Reaches,Connected,joins,touches]

end Netlist

section Visit

open Linked

variable {st : ConcreteNetwork} {pinList termList : ℕ → List ℕ}

/-- What the visit does at a net: a pin or a net for each terminal, then each pin and the net below it. -/
def visitSteps (st : ConcreteNetwork) (pinList termList : ℕ → List ℕ) (n : ℕ) : List (ℕ ⊕ ℕ) :=
  ((termList n).flatMap fun t =>
    match (st.termPin t).bind st.pinOwner with
    | some m => [.inr m]
    | none => [.inl ((st.termPin t).getD 0)]) ++
  (pinList n).flatMap fun p => .inl p :: ((st.netlist.below p).toList.map .inr)

theorem foldlM_flatMap {α β σ : Type} {f : σ → α → Option σ} {g : σ → β → Option σ} {h : α → List β} {l : List α}
    (same : ∀ a ∈ l, ∀ s, f s a = (h a).foldlM g s) (s : σ) : l.foldlM f s = (l.flatMap h).foldlM g s := by
  induction l generalizing s with
  | nil => rfl
  | cons a l ih =>
    rw [List.foldlM_cons,List.flatMap_cons,List.foldlM_append,same a List.mem_cons_self]
    refine congrArg _ (funext fun s' => ?_)
    exact ih (fun b mem => same b (List.mem_cons_of_mem a mem)) s'

theorem visitSteps_inr (threaded : Threaded st st.pinOwner st.termOwner pinList termList) (refs : Refs st) {n m : ℕ} :
    .inr m ∈ visitSteps st pinList termList n ↔ st.netlist.Joins n m ∨ st.netlist.Joins m n := by
  have below : ∀ p m, st.netlist.below p = some m ↔ ∃ t, st.pinTerm p = some t ∧ st.termOwner t = some m := fun p m =>
    Option.bind_eq_some_iff
  simp only [visitSteps,List.mem_append,List.mem_flatMap,List.mem_cons,reduceCtorEq,false_or,List.mem_map,
    Option.mem_toList,
    Sum.inr.injEq,exists_eq_right]
  constructor
  · rintro (⟨t, mem, step⟩ | ⟨p, mem, under⟩)
    · cases here : (st.termPin t).bind st.pinOwner with
      | none => simp [here] at step
      | some m' =>
        obtain rfl : m = m' := by simpa [here] using step
        obtain ⟨p, onPin, on⟩ := Option.bind_eq_some_iff.1 here
        exact .inr ⟨p, on, (below p n).2 ⟨t, (refs.refers t p).1 onPin, (threaded.terms.owner n t).1 mem⟩⟩
    · exact .inl ⟨p, (threaded.pins.owner n p).1 mem, under⟩
  · rintro (⟨p, on, under⟩ | ⟨p, on, under⟩)
    · exact .inr ⟨p, (threaded.pins.owner n p).2 on, under⟩
    · obtain ⟨t, hasTerm, onTerm⟩ := (below p n).1 under
      refine .inl ⟨t, (threaded.terms.owner n t).2 onTerm, ?_⟩
      have here : (st.termPin t).bind st.pinOwner = some m :=
        Option.bind_eq_some_iff.2 ⟨p, (refs.refers t p).2 hasTerm, on⟩
      simp [here]

theorem visitSteps_inl (threaded : Threaded st st.pinOwner st.termOwner pinList termList) (refs : Refs st) {n p : ℕ} :
    .inl p ∈ visitSteps st pinList termList n ↔ st.netlist.Touches n p := by
  have below : st.netlist.below p = some n ↔ ∃ t, st.pinTerm p = some t ∧ st.termOwner t = some n :=
    Option.bind_eq_some_iff
  have live : ∀ t, t ∈ termList n → ∃ q, st.termPin t = some q := fun t mem => by
    obtain ⟨cterm, hterm⟩ := Option.isSome_iff_exists.1 (threaded.termLive t n ((threaded.terms.owner n t).1 mem)).1
    exact ⟨cterm.pin, by simp [termPin,termData,hterm,ConcreteTerm.unlinked]⟩
  simp only [visitSteps,List.mem_append,List.mem_flatMap,List.mem_cons,Sum.inl.injEq,List.mem_map,
    reduceCtorEq,and_false,
    exists_false,or_false,exists_eq_right']
  constructor
  · rintro (⟨t, mem, step⟩ | mem)
    · obtain ⟨q, onPin⟩ := live t mem
      cases here : st.pinOwner q with
      | some m => simp [onPin,here] at step
      | none =>
        obtain rfl : p = q := by simpa [onPin,here] using step
        exact .inr ⟨here, below.2 ⟨t, (refs.refers t p).1 onPin, (threaded.terms.owner n t).1 mem⟩⟩
    · exact .inl ((threaded.pins.owner n p).1 mem)
  · rintro (on | ⟨off, under⟩)
    · exact .inr ((threaded.pins.owner n p).2 on)
    · obtain ⟨t, hasTerm, onTerm⟩ := below.1 under
      have onPin := (refs.refers t p).2 hasTerm
      have off' : st.pinOwner p = none := off
      exact .inl ⟨t, (threaded.terms.owner n t).2 onTerm, by simp [onPin,off']⟩

theorem visitConnectedPins_eq (threaded : Threaded st st.pinOwner st.termOwner pinList termList) (refs : Refs st)
    {fuel n : ℕ} (onNet : st.netLive n) (found : List ℕ × List ℕ) :
    st.visitConnectedPins fuel n found = Visit.visit (visitSteps st pinList termList) fuel n found := by
  induction fuel generalizing n found with
  | zero => rfl
  | succ fuel ih =>
    obtain ⟨visited, met⟩ := found
    by_cases old : n ∈ visited
    · simp [visitConnectedPins,Visit.visit,old]
    obtain ⟨cnet, hnet⟩ := Option.isSome_iff_exists.1 onNet
    have terms : walk st.termNext st.objectId cnet.terms = some (termList n) := by
      have list := threaded.terms.chain n
      rw [show st.termHead n = cnet.terms by simp [termHead, hnet]] at list
      exact list.walk (threaded.termList_short refs n)
    have pins : walk st.pinNext st.objectId cnet.pins = some (pinList n) := by
      have list := threaded.pins.chain n
      rw [show st.pinHead n = cnet.pins by simp [pinHead, hnet]] at list
      exact list.walk (threaded.pinList_short refs n)
    simp only [visitConnectedPins,Visit.visit,old,if_false,hnet,terms,pins,Option.bind_eq_bind,
      Option.bind_some,visitSteps,
      List.foldlM_append]
    refine congr (congrArg Option.bind (foldlM_flatMap (fun t mem s => ?_) _)) (funext fun s =>
      foldlM_flatMap (fun p mem s => ?_) s)
    · obtain ⟨cterm, hterm⟩ := Option.isSome_iff_exists.1 (threaded.termLive t n ((threaded.terms.owner n t).1 mem)).1
      have onPin : st.termPin t = some cterm.pin := by simp [termPin,termData,hterm,ConcreteTerm.unlinked]
      have hasTerm := (refs.refers t cterm.pin).1 onPin
      obtain ⟨cpin, hpin⟩ : ∃ cpin, st.pins cterm.pin = some cpin := by
        cases here : st.pins cterm.pin with
        | none => simp [pinTerm,pinData,here] at hasTerm
        | some cpin => exact ⟨cpin, rfl⟩
      have owner := pinOwner_of_pins hpin
      cases above : cpin.net with
      | none => simp [hterm,hpin,onPin,owner,above]
      | some m =>
        have live := (threaded.live cterm.pin m (owner.trans above)).2
        simp [hterm,hpin,onPin,owner,above,ih live]
    · obtain ⟨cpin, hpin⟩ := Option.isSome_iff_exists.1 (threaded.pinListLive mem)
      have hasTerm := pinTerm_of_pins hpin
      cases term : cpin.term with
      | none => simp [hpin,term,Netlist.below,netlist,hasTerm]
      | some t =>
        have onPin := (refs.refers t p).2 (hasTerm.trans term)
        obtain ⟨cterm, hterm⟩ : ∃ cterm, st.terms t = some cterm := by
          cases here : st.terms t with
          | none => simp [termPin,termData,here] at onPin
          | some cterm => exact ⟨cterm, rfl⟩
        have owner : st.termOwner t = cterm.net := by simp [termOwner,termData,hterm,ConcreteTerm.unlinked]
        cases under : cterm.net with
        | none => simp [hpin,term,hterm,under,Netlist.below,netlist,hasTerm,owner]
        | some b =>
          have live := (threaded.termLive t b (owner.trans under)).2
          simp [hpin,term,hterm,under,Netlist.below,netlist,hasTerm,owner,ih live]

/-- The visit completes, and meets the pins the net reaches. -/
theorem Inv.connectedPins (inv : Inv st) {n : ℕ} (onNet : st.netLive n) :
    ∃ pins, st.connectedPins n = some pins ∧ ∀ p, p ∈ pins ↔ st.netlist.Reaches n p := by
  obtain ⟨pinList, termList, threaded⟩ := inv.threaded
  have bounded : ∀ m, st.netLive m → m < st.objectId := fun m live => by
    by_contra beyond
    simp [(inv.refs.fresh m (Nat.le_of_not_lt beyond)).2.2.1] at live
  have closed : Visit.Closed (visitSteps st pinList termList) ((Finset.range st.objectId).filter (st.netLive ·)) := by
    intro a _ b step
    have live : st.netLive b := by
      rcases (visitSteps_inr threaded inv.refs).1 step with ⟨p, _, under⟩ | ⟨p, on, _⟩
      · obtain ⟨t, _, onTerm⟩ := Option.bind_eq_some_iff.1 under
        exact (threaded.termLive t b onTerm).2
      · exact (threaded.live p b on).2
    simp [live,bounded b live]
  have few : ((Finset.range st.objectId).filter (st.netLive ·)).card < st.objectId + 1 := by
    have le := Finset.card_filter_le (Finset.range st.objectId) (st.netLive ·)
    rw [Finset.card_range] at le
    omega
  have inside : n ∈ (Finset.range st.objectId).filter (st.netLive ·) := by simp [onNet,bounded n onNet]
  obtain ⟨visited, met, run, spec⟩ := Visit.visit_spec closed inside few
  refine ⟨met, by rw [ConcreteNetwork.connectedPins,visitConnectedPins_eq threaded inv.refs onNet,run]; rfl,
    fun p => ?_⟩
  have reach : Visit.Reach (visitSteps st pinList termList) n = st.netlist.Connected n := by
    have step : (fun a b => Sum.inr b ∈ visitSteps st pinList termList a) = fun a b => st.netlist.Joins a b ∨
      st.netlist.Joins b a :=
      funext fun a => funext fun b => propext (visitSteps_inr threaded inv.refs)
    simp only [Visit.Reach,Netlist.Connected,step]
  rw [spec,reach]
  simp only [visitSteps_inl threaded inv.refs,Netlist.Reaches]

end Visit

end GTPower.ConcreteNetwork
