import GTPower.LeastSeen
import Mathlib.Algebra.Order.Floor.Ring
import Mathlib.Algebra.Order.Archimedean.Basic
import Mathlib.Data.Rat.Floor
import Mathlib.Tactic.Linarith
import Mathlib.Tactic.FieldSimp

/-! Setup and hold delays between edges of two clocks: the loops over their cycles, and the pairs of edges that these
look at. Times are rationals and their comparisons exact. -/
namespace GTPower.CycleAccting

structure ClockEdge where
  time : ℚ
  /-- Of the other edge of the clock. -/
  oppositeTime : ℚ
  period : ℚ

inductive TimingRole
  | setup | hold | recovery | removal | outputSetup | outputHold | gatedClockSetup | gatedClockHold
    | latchSetup | latchHold
  | dataCheckSetup | dataCheckHold
  deriving DecidableEq

structure Acct where
  srcCycle : ℤ
  tgtCycle : ℤ
  delay : ℚ
  required : ℚ
  deriving DecidableEq

def minInitValue : ℚ := 10 ^ 30

/-- The accounts with the local flags of `findDelays`. -/
structure State where
  accts : TimingRole → Acct
  tgtPastSrc : Bool
  srcPastTgt : Bool
  maxCyclesExceeded : Bool

namespace ClockEdge

def cycleStart (edge : ClockEdge) (cycle : ℤ) : ℚ := cycle * edge.period

def cycleTime (edge : ClockEdge) (cycle : ℤ) : ℚ := edge.cycleStart cycle + edge.time

def firstCycle (edge : ClockEdge) : ℤ := if edge.time < 0 then 1 else if edge.time < edge.period then 0 else -1

end ClockEdge

namespace State

def start : State := ⟨fun _ => ⟨0, 0, minInitValue, 0⟩, false, false, false⟩

def delay (s : State) (role : TimingRole) : ℚ := (s.accts role).delay

def setAccting (s : State) (role : TimingRole) (acct : Acct) : State :=
  { s with accts := Function.update s.accts role acct }

def setSetupAccting (s : State) (acct : Acct) : State :=
  (((s.setAccting .setup acct).setAccting .outputSetup acct).setAccting .gatedClockSetup acct).setAccting .recovery acct

def setHoldAccting (s : State) (acct : Acct) : State :=
  (((s.setAccting .hold acct).setAccting .outputHold acct).setAccting .removal acct).setAccting .latchHold acct

def setDefaultSetupAccting (s : State) (acct : Acct) : State :=
  ((s.setSetupAccting acct).setAccting .latchSetup acct).setAccting .dataCheckSetup acct

def setDefaultHoldAccting (s : State) (acct : Acct) : State := (s.setHoldAccting acct).setAccting .dataCheckHold acct

end State

section Source
variable (src tgt : ClockEdge) (srcCycle tgtCycle : ℤ) (s : State)

/-- For setup checks, the target is after the source. -/
def checkSetup : State :=
  if tgt.cycleTime tgtCycle > src.cycleTime srcCycle then
    let s := { s with tgtPastSrc := true }
    let delay := tgt.cycleTime tgtCycle - src.cycleTime srcCycle
    if delay < s.delay .setup then
      s.setSetupAccting ⟨srcCycle, tgtCycle, delay, tgt.cycleTime tgtCycle - src.cycleStart srcCycle⟩
    else s
  else s

/-- Data check setup checks are zero cycle. -/
def checkDataCheck : State :=
  if tgt.cycleTime tgtCycle ≤ src.cycleTime srcCycle then
    let setupDelay := src.cycleTime srcCycle - tgt.cycleTime tgtCycle
    if setupDelay < s.delay .dataCheckSetup then
      let s := s.setAccting .dataCheckSetup ⟨srcCycle, tgtCycle, setupDelay,
        tgt.cycleTime tgtCycle - src.cycleStart srcCycle⟩
      s.setAccting .dataCheckHold ⟨srcCycle + 1, tgtCycle, src.period + src.cycleTime srcCycle - tgt.cycleTime tgtCycle,
        tgt.cycleTime tgtCycle - (src.cycleStart srcCycle + src.period)⟩
    else s
  else s

/-- The enable of a latch is the edge before the opposite one. -/
def checkLatchSetup : State :=
  let tgtOppTime := tgt.cycleStart tgtCycle + tgt.oppositeTime
  if tgtOppTime > src.cycleTime srcCycle then
    let delay := tgtOppTime - src.cycleTime srcCycle
    if delay < s.delay .latchSetup then
      if tgt.cycleTime tgtCycle > tgtOppTime then
        s.setAccting .latchSetup ⟨srcCycle, tgtCycle - 1, delay, tgt.cycleTime tgtCycle - tgt.period -
          src.cycleStart srcCycle⟩
      else s.setAccting .latchSetup ⟨srcCycle, tgtCycle, delay, tgt.cycleTime tgtCycle - src.cycleStart srcCycle⟩
    else s
  else s

/-- For hold checks, the target is before the source. -/
def checkHold : State :=
  if tgt.cycleTime tgtCycle ≤ src.cycleTime srcCycle then
    let delay := src.cycleTime srcCycle - tgt.cycleTime tgtCycle
    let s := { s with srcPastTgt := true }
    if delay < s.delay .hold then
      s.setHoldAccting ⟨srcCycle, tgtCycle, delay, tgt.cycleTime tgtCycle - src.cycleStart srcCycle⟩
    else s
  else s

/-- Gated clock hold checks are in the cycle of the setup check. -/
def checkGatedClockHold : State :=
  if tgt.cycleStart tgtCycle + tgt.oppositeTime ≤ src.cycleTime srcCycle then
    let delay := src.cycleTime srcCycle - tgt.cycleTime tgtCycle
    if delay < s.delay .gatedClockHold then
      s.setAccting .gatedClockHold ⟨srcCycle, tgtCycle, delay, tgt.cycleTime tgtCycle - src.cycleStart srcCycle⟩
    else s
  else s

def checkPair : State :=
  checkGatedClockHold src tgt srcCycle tgtCycle
    (checkHold src tgt srcCycle tgtCycle
      (checkLatchSetup src tgt srcCycle tgtCycle
        (checkDataCheck src tgt srcCycle tgtCycle (checkSetup src tgt srcCycle tgtCycle s))))

/-- The loop over the source cycles. It says whether `findDelays` returns. -/
def srcLoop : ℕ → ℤ → State → Option (Bool × State)
  | 0, _, _ => none
  | fuel + 1, srcCycle, s =>
    if (s.tgtPastSrc && s.srcPastTgt) ∧ src.cycleStart srcCycle = tgt.cycleStart tgtCycle then some (true, s)
    else if src.cycleStart srcCycle > tgt.cycleStart tgtCycle + tgt.period ∧ s.srcPastTgt then some (false, s)
    else srcLoop fuel (srcCycle + 1) (checkPair src tgt srcCycle tgtCycle s)

/-- The source cycle in which the loop breaks at the latest. -/
def lastSrcCycle : ℤ :=
  max (⌈max (tgt.cycleStart tgtCycle + tgt.period) (tgt.cycleTime tgtCycle - src.time) / src.period⌉ + 1)
    (src.firstCycle + 1)

def tgtMaxCycle : ℤ := if tgt.period > src.period then 100 else max ⌈src.period / tgt.period⌉ 1000

def tgtLoop : ℕ → ℤ → State → Option State
  | 0, _, _ => none
  | fuel + 1, tgtCycle, s =>
    if tgtCycle ≤ tgtMaxCycle src tgt then
      (srcLoop src tgt tgtCycle ((lastSrcCycle src tgt tgtCycle - src.firstCycle).toNat + 1) src.firstCycle s).bind
        fun (done, s) =>
        if done then some s else tgtLoop fuel (tgtCycle + 1) s
    else some { s with maxCyclesExceeded := true }

def findDefaultArrivalSrcDelays : State :=
  let s :=
    if tgt.time > tgt.period then s.setDefaultSetupAccting ⟨0, 0, tgt.time - tgt.period, tgt.time - tgt.period⟩
    else if tgt.time > 0 then s.setDefaultSetupAccting ⟨0, 0, tgt.time, tgt.time⟩
    else s.setDefaultSetupAccting ⟨0, 1, tgt.period, tgt.period⟩
  s.setDefaultHoldAccting ⟨0, 0, 0, tgt.time⟩

/-- Undefined where a loop would run out of its bound. -/
def findDelays : Option State :=
  if tgt.period > 0 ∧ src.period > 0 then
    tgtLoop src tgt ((tgtMaxCycle src tgt + 1 - tgt.firstCycle).toNat + 1) tgt.firstCycle .start
  else if tgt.period > 0 then some (findDefaultArrivalSrcDelays tgt .start)
  else some .start

end Source

end GTPower.CycleAccting
