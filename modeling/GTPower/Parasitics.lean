import GTPower.Event
import Mathlib.Data.List.Induction
import Mathlib.Data.Fin.Basic
import Mathlib.Tactic.Common

/-! Reduced parasitics of driver pins. Each driver has an array with one model for each analysis point and transition. A
driver without an array and one with a null array are the same to every operation. -/
namespace GTPower

def RiseFall.index : RiseFall → Nat
  | .rise => 0
  | .fall => 1

namespace Parasitics

structure PiModel (κ : Type*) where
  c2 : κ
  rpi : κ
  c1 : κ
  deriving DecidableEq

inductive Parasitic (κ : Type*) where
  | piElmore (pi : PiModel κ)
  | piPoleResidue (pi : PiModel κ)
  deriving DecidableEq

def Parasitic.isPiElmore {κ : Type*} : Parasitic κ → Bool
  | .piElmore _ => true
  | .piPoleResidue _ => false

variable {n : Nat} {π ν κ : Type*} [DecidableEq π]

abbrev Entries (n : Nat) (κ : Type*) := Fin (n * 2) → Option (Parasitic κ)

abbrev Store (π : Type*) (n : Nat) (κ : Type*) := π → Option (Entries n κ)

section Source

theorem parasiticAnalysisPtIndex_lt (ap : Fin n) (rf : RiseFall) : ap.val * 2 + rf.index < n * 2 := by
  have := ap.isLt
  cases rf <;> simp only [RiseFall.index] <;> omega

theorem index_lt (ap : Fin n) : ap.val < n * 2 := by omega

def parasiticAnalysisPtIndex (ap : Fin n) (rf : RiseFall) : Fin (n * 2) :=
  ⟨ap.val * 2 + rf.index, parasiticAnalysisPtIndex_lt ap rf⟩

def noEntries : Entries n κ := fun _ => none

/-- The array of a driver, made where there is none. -/
def entries (store : Store π n κ) (drvrPin : π) : Entries n κ := (store drvrPin).getD noEntries

def setEntries (store : Store π n κ) (drvrPin : π) (parasitics : Option (Entries n κ)) : Store π n κ :=
  fun other => if other = drvrPin then parasitics else store other

def setEntry (parasitics : Entries n κ) (index : Fin (n * 2)) (parasitic : Option (Parasitic κ)) : Entries n κ :=
  fun other => if other = index then parasitic else parasitics other

def findPiElmore (store : Store π n κ) (drvrPin : π) (rf : RiseFall) (ap : Fin n) : Option (Parasitic κ) :=
  match store drvrPin with
  | some parasitics => (parasitics (parasiticAnalysisPtIndex ap rf)).filter Parasitic.isPiElmore
  | none => none

/-- A model of the kind gets the new values, any other is replaced. -/
def makePiElmore (store : Store π n κ) (drvrPin : π) (rf : RiseFall) (ap : Fin n) (pi : PiModel κ) : Store π n κ :=
  setEntries store drvrPin
    (some (setEntry (entries store drvrPin) (parasiticAnalysisPtIndex ap rf) (some (.piElmore pi))))

/-- The cast of a model that is Pi-Elmore is null, and null is dereferenced. -/
def makePiPoleResidue (store : Store π n κ) (drvrPin : π) (rf : RiseFall) (ap : Fin n) (pi : PiModel κ) :
    Option (Store π n κ) :=
  if (entries store drvrPin (parasiticAnalysisPtIndex ap rf)).any Parasitic.isPiElmore then none
  else
    some (setEntries store drvrPin
      (some (setEntry (entries store drvrPin) (parasiticAnalysisPtIndex ap rf) (some (.piPoleResidue pi)))))

def deleteParasitics (store : Store π n κ) (drvrPin : π) (ap : Fin n) : Store π n κ :=
  setEntries store drvrPin ((store drvrPin).map fun parasitics =>
    setEntry (setEntry parasitics (parasiticAnalysisPtIndex ap .rise) none) (parasiticAnalysisPtIndex ap .fall) none)

/-- The index is that of the point alone. -/
def deleteDrvrReducedParasitics (ap : Fin n) (store : Store π n κ) (drvrPin : π) : Store π n κ :=
  setEntries store drvrPin ((store drvrPin).map fun parasitics => setEntry parasitics ⟨ap.val, index_lt ap⟩ none)

def deleteAllReducedParasitics (store : Store π n κ) (drvrPin : π) : Store π n κ := setEntries store drvrPin none

inductive Call (π ν : Type*) (n : Nat) (κ : Type*) where
  | makePiElmore (drvrPin : π) (rf : RiseFall) (ap : Fin n) (pi : PiModel κ)
  | makePiPoleResidue (drvrPin : π) (rf : RiseFall) (ap : Fin n) (pi : PiModel κ)
  | deleteParasitics (drvrPin : π) (ap : Fin n)
  | deleteReducedParasiticsNet (net : ν) (ap : Fin n)
  | deleteReducedParasiticsPin (pin : π)
  | findPiElmore (drvrPin : π) (rf : RiseFall) (ap : Fin n)

structure Network (π ν : Type*) where
  drivers : ν → List π
  pinDrivers : π → List π

variable (network : Network π ν)

def step (store : Store π n κ) : Call π ν n κ → Option (Store π n κ)
  | .makePiElmore drvrPin rf ap pi => some (makePiElmore store drvrPin rf ap pi)
  | .makePiPoleResidue drvrPin rf ap pi => makePiPoleResidue store drvrPin rf ap pi
  | .deleteParasitics drvrPin ap => some (deleteParasitics store drvrPin ap)
  | .deleteReducedParasiticsNet net ap => some ((network.drivers net).foldl (deleteDrvrReducedParasitics ap) store)
  | .deleteReducedParasiticsPin pin => some ((network.pinDrivers pin).foldl deleteAllReducedParasitics store)
  | .findPiElmore _ _ _ => some store

def initial : Store π n κ := fun _ => none

def run (calls : List (Call π ν n κ)) : Option (Store π n κ) := calls.foldlM (step network) initial

end Source

section Models

/-- The models, one for each driver, transition and analysis point. -/
abbrev Models (π : Type*) (n : Nat) (κ : Type*) := π → RiseFall → Fin n → Option (Parasitic κ)

variable (network : Network π ν)

def Models.step (models : Models π n κ) : Call π ν n κ → Models π n κ
  | .makePiElmore drvrPin rf ap pi => fun d r a => if d = drvrPin ∧ r = rf ∧
    a = ap then some (.piElmore pi) else models d r a
  | .makePiPoleResidue drvrPin rf ap pi => fun d r a => if d = drvrPin ∧ r = rf ∧
    a = ap then some (.piPoleResidue pi) else models d r a
  | .deleteParasitics drvrPin ap => fun d r a => if d = drvrPin ∧ a = ap then none else models d r a
  | .deleteReducedParasiticsNet net ap => fun d r a => if d ∈ network.drivers net ∧ a = ap then none else models d r a
  | .deleteReducedParasiticsPin pin => fun d r a => if d ∈ network.pinDrivers pin then none else models d r a
  | .findPiElmore _ _ _ => models

def Models.run (calls : List (Call π ν n κ)) : Models π n κ := calls.foldl (Models.step network) fun _ _ _ => none

def models (store : Store π n κ) : Models π n κ :=
  fun drvrPin rf ap => entries store drvrPin (parasiticAnalysisPtIndex ap rf)

/-- No Pi-Elmore model stands where a pole residue model is made, and a driver of the net has no model at the array
index of the point unless it is of the point, and no model of the point elsewhere. -/
def Safe (store : Store π n κ) : Call π ν n κ → Prop
  | .makePiPoleResidue drvrPin rf ap _ => ∀ pi, models store drvrPin rf ap ≠ some (.piElmore pi)
  | .deleteReducedParasiticsNet net ap => ∀ drvrPin ∈ network.drivers net, ∀ rf a,
      ((parasiticAnalysisPtIndex a rf).val = ap.val ↔ a = ap) ∨ models store drvrPin rf a = none
  | _ => True

end Models

section Steps

variable {network : Network π ν} {store store' : Store π n κ}

/-- Points and transitions have their own places. -/
@[simp] theorem parasiticAnalysisPtIndex_inj {a ap : Fin n} {r rf : RiseFall} :
    parasiticAnalysisPtIndex a r = parasiticAnalysisPtIndex ap rf ↔ a = ap ∧ r = rf := by
  constructor
  · intro same
    have same := congrArg Fin.val same
    cases r <;> cases rf <;> simp only [parasiticAnalysisPtIndex,RiseFall.index] at same
    · exact ⟨Fin.ext (by omega), rfl⟩
    · omega
    · omega
    · exact ⟨Fin.ext (by omega), rfl⟩
  · rintro ⟨rfl, rfl⟩
    rfl

omit [DecidableEq π] in
theorem findPiElmore_models (drvrPin : π) (rf : RiseFall) (ap : Fin n) :
    findPiElmore store drvrPin rf ap = (models store drvrPin rf ap).filter Parasitic.isPiElmore := by
  unfold findPiElmore models entries
  cases store drvrPin <;> rfl

theorem models_setEntries (parasitics : Option (Entries n κ)) (drvrPin d : π) (r : RiseFall) (a : Fin n) :
    models (setEntries store drvrPin parasitics) d r a =
      if d = drvrPin then parasitics.getD noEntries (parasiticAnalysisPtIndex a r) else models store d r a := by
  unfold models entries setEntries
  split <;> rfl

theorem models_setEntry (drvrPin d : π) (r rf : RiseFall) (a ap : Fin n) (parasitic : Option (Parasitic κ)) :
    models (setEntries store drvrPin
    (some (setEntry (entries store drvrPin) (parasiticAnalysisPtIndex ap rf) parasitic))) d r a =
      if d = drvrPin ∧ r = rf ∧ a = ap then parasitic else models store d r a := by
  rw [models_setEntries]
  by_cases driver : d = drvrPin
  · simp only [driver,if_true,Option.getD_some,setEntry,parasiticAnalysisPtIndex_inj,true_and,and_comm,models]
  · simp [driver]

theorem models_deleteParasitics (drvrPin d : π) (r : RiseFall) (a ap : Fin n) :
    models (deleteParasitics store drvrPin ap) d r a = if d = drvrPin ∧ a = ap then none else models store d r a := by
  rw [deleteParasitics,models_setEntries]
  by_cases driver : d = drvrPin
  · subst driver
    cases held : store d with
    | none => simp [models,entries,held,noEntries]
    | some parasitics => cases r <;> by_cases point : a = ap <;> simp [models,entries,held,setEntry,point]
  · simp [driver]

theorem models_deleteDrvrReducedParasitics (drivers : List π) (ap : Fin n) (d : π) (r : RiseFall) (a : Fin n) :
    models (drivers.foldl (deleteDrvrReducedParasitics ap) store) d r a =
      if d ∈ drivers ∧ (parasiticAnalysisPtIndex a r).val = ap.val then none else models store d r a := by
  induction drivers generalizing store with
  | nil => simp
  | cons drvrPin rest ih =>
    have one : models (deleteDrvrReducedParasitics ap store drvrPin) d r a =
        if d = drvrPin ∧ (parasiticAnalysisPtIndex a r).val = ap.val then none else models store d r a := by
      rw [deleteDrvrReducedParasitics,models_setEntries]
      by_cases driver : d = drvrPin
      · subst driver
        cases held : store d with
        | none => simp [models,entries,held,noEntries]
        | some parasitics => simp [models,entries,held,setEntry,Fin.ext_iff]
      · simp [driver]
    rw [List.foldl_cons,ih,one]
    by_cases place : (parasiticAnalysisPtIndex a r).val = ap.val
    · by_cases driver : d = drvrPin <;> by_cases inRest : d ∈ rest <;> simp [driver,inRest,place]
    · simp [place]

theorem models_deleteAllReducedParasitics (drivers : List π) (d : π) (r : RiseFall) (a : Fin n) :
    models (drivers.foldl deleteAllReducedParasitics store) d r a = if d ∈ drivers then none
    else models store d r a := by
  induction drivers generalizing store with
  | nil => simp
  | cons drvrPin rest ih =>
    rw [List.foldl_cons,ih,deleteAllReducedParasitics,models_setEntries]
    by_cases driver : d = drvrPin <;> by_cases inRest : d ∈ rest <;> simp [driver,inRest,noEntries]

/-- A call does what it is for exactly under its condition. -/
theorem step_models (store : Store π n κ) (call : Call π ν n κ) :
    (∃ store', step network store call = some store' ∧ models store' = (models store).step network call) ↔
      Safe network store call := by
  cases call with
  | makePiElmore drvrPin rf ap pi =>
    refine iff_of_true ⟨_, rfl, ?_⟩ trivial
    funext d r a
    exact models_setEntry drvrPin d r rf a ap _
  | makePiPoleResidue drvrPin rf ap pi =>
    simp only [step,makePiPoleResidue,Safe]
    cases held : models store drvrPin rf ap with
    | none =>
      have place : entries store drvrPin (parasiticAnalysisPtIndex ap rf) = none := held
      refine iff_of_true ⟨_, by rw [place]; rfl, ?_⟩ (by simp)
      funext d r a
      exact models_setEntry drvrPin d r rf a ap _
    | some parasitic =>
      have place : entries store drvrPin (parasiticAnalysisPtIndex ap rf) = some parasitic := held
      cases parasitic with
      | piElmore old =>
        refine iff_of_false ?_ (fun safe => safe old rfl)
        simp [place,Parasitic.isPiElmore]
      | piPoleResidue old =>
        refine iff_of_true ⟨_, by rw [place]; rfl, ?_⟩ (by simp)
        funext d r a
        exact models_setEntry drvrPin d r rf a ap _
  | deleteParasitics drvrPin ap =>
    refine iff_of_true ⟨_, rfl, ?_⟩ trivial
    funext d r a
    exact models_deleteParasitics drvrPin d r a ap
  | deleteReducedParasiticsNet net ap =>
    simp only [step,Option.some.injEq,exists_eq_left',Safe,Models.step]
    constructor
    · intro same drvrPin mem rf a
      have here := congrFun (congrFun (congrFun same drvrPin) rf) a
      rw [models_deleteDrvrReducedParasitics] at here
      simp only [mem,true_and] at here
      by_cases place : (parasiticAnalysisPtIndex a rf).val = ap.val
      · rw [if_pos place] at here
        by_cases point : a = ap
        · exact .inl (iff_of_true place point)
        · rw [if_neg point] at here
          exact .inr here.symm
      · rw [if_neg place] at here
        by_cases point : a = ap
        · rw [if_pos point] at here
          exact .inr here
        · exact .inl (iff_of_false place point)
    · intro safe
      funext d rf a
      rw [models_deleteDrvrReducedParasitics]
      by_cases mem : d ∈ network.drivers net
      · rcases safe d mem rf a with same | none
        · simp only [mem,same,true_and]
        · simp only [none,ite_self]
      · simp [mem]
  | deleteReducedParasiticsPin pin =>
    refine iff_of_true ⟨_, rfl, ?_⟩ trivial
    funext d r a
    exact models_deleteAllReducedParasitics (network.pinDrivers pin) d r a
  | findPiElmore => exact iff_of_true ⟨_, rfl, rfl⟩ trivial

theorem run_append (calls : List (Call π ν n κ)) (call : Call π ν n κ) :
    run network (calls ++ [call]) = (run network calls).bind fun store => step network store call := by
  simp [run,List.foldlM_append]

theorem Models.run_append (calls : List (Call π ν n κ)) (call : Call π ν n κ) :
    Models.run network (calls ++ [call]) = (Models.run network calls).step network call := by
  simp [Models.run]

end Steps

/-- After every call no missing model was dereferenced, the models are those made and not deleted since, and a Pi-Elmore
model is found exactly where it is the one last made. -/
def IsMap (network : Network π ν) (calls : List (Call π ν n κ)) : Prop :=
  ∀ before, before <+: calls → ∃ store, run network before = some store ∧ models store = Models.run network before ∧
    ∀ drvrPin rf ap, findPiElmore store drvrPin rf ap =
      (Models.run network before drvrPin rf ap).filter Parasitic.isPiElmore

/-- The store is a map of the models exactly along the calls that meet their condition. -/
theorem run_isMap (network : Network π ν) (calls : List (Call π ν n κ)) :
    IsMap network calls ↔
      ∀ before call, before ++ [call] <+: calls → ∀ store, run network before = some store →
        Safe network store call := by
  constructor
  · intro map before call isPrefix store ran
    obtain ⟨store₁, ran₁, same₁, _⟩ := map before ((List.prefix_append before [call]).trans isPrefix)
    obtain ⟨store₂, ran₂, same₂, _⟩ := map (before ++ [call]) isPrefix
    rw [ran] at ran₁
    cases ran₁
    rw [run_append,ran,Option.bind_some] at ran₂
    rw [Models.run_append,← same₁] at same₂
    exact (step_models store call).1 ⟨store₂, ran₂, same₂⟩
  · intro safe before
    induction before using List.reverseRecOn with
    | nil => exact fun _ => ⟨initial, rfl, rfl, fun _ _ _ => rfl⟩
    | append_singleton before call ih =>
      intro isPrefix
      obtain ⟨store, ran, same, _⟩ := ih ((List.prefix_append before [call]).trans isPrefix)
      obtain ⟨store', stepped, models'⟩ := (step_models store call).2 (safe before call isPrefix store ran)
      have models' : models store' = Models.run network (before ++ [call]) := by rw [models',Models.run_append,same]
      refine ⟨store', ?_, models', fun drvrPin rf ap => ?_⟩
      · rw [run_append,ran,Option.bind_some,stepped]
      · rw [findPiElmore_models,models']

/-- Deleting the models of one point deletes one of another point and keeps one of its own; and a pole residue model
cannot be made where a Pi-Elmore model stands. -/
theorem run_isMap_fails :
    let network : Network Nat Nat := ⟨fun _ => [0], fun _ => [0]⟩
    let pi : PiModel Nat := ⟨1, 2, 3⟩
    let made : List (Call Nat Nat 2 Nat) := [.makePiElmore 0 .fall 0 pi, .makePiElmore 0 .fall 1 pi]
    ¬ IsMap network (made ++ [.deleteReducedParasiticsNet 7 1]) ∧
      ¬ IsMap network (made ++ [.makePiPoleResidue 0 .fall 0 pi]) ∧
      ∃ store, run network (made ++ [.deleteReducedParasiticsNet 7 1]) = some store ∧
        findPiElmore store 0 .fall 0 = none ∧ findPiElmore store 0 .fall 1 = some (.piElmore pi) := by
  refine ⟨fun map => ?_, fun map => ?_, _, rfl, rfl, rfl⟩
  · obtain ⟨store, ran, _, found⟩ := map _ (List.prefix_refl _)
    have found := found 0 .fall 0
    rw [← Option.some.inj ran] at found
    cases found
  · obtain ⟨store, ran, _⟩ := map _ (List.prefix_refl _)
    cases ran

end Parasitics
end GTPower
