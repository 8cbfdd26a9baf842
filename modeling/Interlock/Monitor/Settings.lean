import Interlock.Json.Record
import Interlock.Monitor.Basic

/-!
# Settings of a monitor

The settings of a monitor are one number, how often a thread looks at the lock before it falls
asleep. They are written as a mapping with that one name; reading accepts any mapping and takes
the default where the name is missing.
-/

namespace Interlock.Monitor

/-- The settings of a monitor. -/
structure Settings where
  /-- How often a thread looks at the lock before it falls asleep. -/
  spinLimit : UInt32 := 40
  deriving DecidableEq, Repr

namespace Settings

/-- The settings as a record in a text. -/
def record : Json.Record UInt32 where
  name := "MonitorConfig"
  field := "spin_limit"
  item := Json.readUInt32
  absent := some ({} : Settings).spinLimit

def ofText (text : String) : Except Json.Problem Settings :=
  Settings.mk <$> record.ofText text

def toText (s : Settings) : String :=
  "\x7b\"" ++ record.field ++ "\":" ++ toString s.spinLimit.toNat ++ "\x7d"

/-- Whether the settings are the default ones. -/
def isDefault (s : Settings) : Bool :=
  s = {}

def diagnostic (s : Settings) : Text.Diagnostic :=
  .parts record.name [(record.field, .leaf (toString s.spinLimit.toNat))]

end Settings

/-- A monitor around a value that nobody holds. -/
def new {V : Type} (value : V) (settings : Settings := {}) : Monitor V :=
  { value, lock := { spinLimit := settings.spinLimit.toNat } }

end Interlock.Monitor
