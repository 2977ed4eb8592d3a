import CodeLayout.Error

/-!
# Settings

One command-line setting of one option.  Reading a setting and applying it are
separate: whether a text is accepted never depends on the options it will be
applied to, and applying an accepted setting cannot fail.
-/

namespace CodeLayout

/-- Options that are switched on or off. -/
inductive Flag where
  | enabled
  | dumpMode
  | loadMode
  | segmented
  | tiered
  | unlockExperimental
deriving DecidableEq, Repr, Inhabited

namespace Flag

def all : List Flag :=
  [enabled, dumpMode, loadMode, segmented, tiered, unlockExperimental]

def name : Flag → String
  | enabled => "UseJBolt"
  | dumpMode => "JBoltDumpMode"
  | loadMode => "JBoltLoadMode"
  | segmented => "SegmentedCodeCache"
  | tiered => "TieredCompilation"
  | unlockExperimental => "UnlockExperimentalVMOptions"

def ofName? (name : String) : Option Flag :=
  all.find? fun flag => flag.name = name

end Flag

/-- Options that hold a number of bytes. -/
inductive SizeOption where
  | hotHeap
  | nonMethod
  | profiled
  | nonProfiled
  | reserved
deriving DecidableEq, Repr, Inhabited

namespace SizeOption

def all : List SizeOption :=
  [hotHeap, nonMethod, profiled, nonProfiled, reserved]

def name : SizeOption → String
  | hotHeap => "JBoltCodeHeapSize"
  | nonMethod => "NonNMethodCodeHeapSize"
  | profiled => "ProfiledCodeHeapSize"
  | nonProfiled => "NonProfiledCodeHeapSize"
  | reserved => "ReservedCodeCacheSize"

def ofName? (name : String) : Option SizeOption :=
  all.find? fun option => option.name = name

end SizeOption

/-- A value for one option. -/
inductive Setting where
  | flag (flag : Flag) (on : Bool)
  | size (option : SizeOption) (bytes : UInt64)
  | stopAtLevel (level : UInt8)
  | orderFile (path : String)
  | rescheduling (times : String)
deriving DecidableEq, Repr

namespace Setting

/-- The name of the option that a setting is for. -/
def option : Setting → String
  | flag f _ => f.name
  | size o _ => o.name
  | stopAtLevel _ => "TieredStopAtLevel"
  | orderFile _ => "JBoltOrderFile"
  | rescheduling _ => "JBoltRescheduling"

/-- Put the value into the options. -/
def apply (o : Options) : Setting → Options
  | flag .enabled on => { o with enabled := on }
  | flag .dumpMode on => { o with dumpMode := some on }
  | flag .loadMode on => { o with loadMode := some on }
  | flag .segmented on => { o with segmented := on }
  | flag .tiered on => { o with tiered := on }
  | flag .unlockExperimental on => { o with unlockExperimental := on }
  | size .hotHeap bytes => { o with hotHeapSize := some bytes }
  | size .nonMethod bytes => { o with nonMethodSize := bytes }
  | size .profiled bytes => { o with profiledSize := bytes }
  | size .nonProfiled bytes => { o with nonProfiledSize := bytes }
  | size .reserved bytes => { o with reservedSize := bytes }
  | stopAtLevel level => { o with stopAtLevel := level }
  | orderFile path => { o with orderFile := some path }
  | rescheduling times => { o with rescheduling := some times }

/-- Read the spellings `+name` and `-name`, the sign given as a truth value. -/
def ofSign (name : String) (on : Bool) : Except ConfigError Setting :=
  match Flag.ofName? name with
  | some f => .ok (flag f on)
  | none => .error (.unrecognizedOption ((if on then "+" else "-") ++ name))

/-- Highest tier that `TieredStopAtLevel` may name on the command line. -/
def topTier : Nat := 4

/-- Read a tier: digits that a plus sign may precede, at most `topTier`. -/
def parseTier? (value : String) : Option UInt8 :=
  (Digits.parsePlus? value.toList).bind fun level =>
    if level ≤ topTier then some (UInt8.ofNat level) else none

/-- Read a truth value; only the two lower-case words are accepted. -/
def parseFlag? : String → Option Bool
  | "true" => some true
  | "false" => some false
  | _ => none

/-- Read the spelling `name=value`. -/
def ofText (name value : String) : Except ConfigError Setting :=
  let expect (reading : Option Setting) : Except ConfigError Setting :=
    match reading with
    | some setting => .ok setting
    | none => .error (.invalidValue name value)
  match Flag.ofName? name, SizeOption.ofName? name with
  | some f, _ => expect ((parseFlag? value).map (flag f))
  | none, some o => expect ((Size.parse? value).map fun bytes => size o (UInt64.ofNat bytes))
  | none, none =>
    if name = "TieredStopAtLevel" then expect ((parseTier? value).map stopAtLevel)
    else if name = "JBoltOrderFile" then .ok (orderFile value)
    else if name = "JBoltRescheduling" then .ok (rescheduling value)
    else .error (.unrecognizedOption (name ++ "=" ++ value))

end Setting

end CodeLayout
