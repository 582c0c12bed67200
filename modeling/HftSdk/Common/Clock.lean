import HftSdk.Common.Types

/-!
# The clock

`common/clock.hpp` and `.cpp`: the steady clock of the machine, whose reading is an argument here, or
a simulated time that the calls move. The calls do nothing to a clock in wall-clock mode.
-/

namespace HftSdk

inductive ClockMode
  | wallClock | simulated
deriving DecidableEq

structure Clock where
  mode : ClockMode := .wallClock
  simulatedTime : Timestamp := 0

namespace Clock

/-- `now()`, when the steady clock reads `wall`. -/
def now (c : Clock) (wall : Timestamp) : Timestamp :=
  match c.mode with
  | .simulated => c.simulatedTime
  | .wallClock => wall

/-- `fetch_add`, which wraps around. -/
def advance (c : Clock) (deltaNs : UInt64) : Clock :=
  match c.mode with
  | .simulated => { c with simulatedTime := c.simulatedTime + deltaNs }
  | .wallClock => c

def setTime (c : Clock) (ts : Timestamp) : Clock :=
  match c.mode with
  | .simulated => { c with simulatedTime := ts }
  | .wallClock => c

def reset (c : Clock) : Clock :=
  match c.mode with
  | .simulated => { c with simulatedTime := 0 }
  | .wallClock => c

end Clock

end HftSdk
