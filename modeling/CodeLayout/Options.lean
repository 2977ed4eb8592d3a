import CodeLayout.Size

/-!
# Options

The settings that decide which partitions exist, how large they are and what a
reordering pass does.  Five of them only make sense when reordering is
enabled; they are optional values so that "given" and "left at its default"
stay apart.
-/

namespace CodeLayout

/-- Options that may only be given when reordering is enabled. -/
inductive DependentOption where
  | dumpMode
  | loadMode
  | orderFile
  | hotHeapSize
  | rescheduling
deriving DecidableEq, Repr, Inhabited

namespace DependentOption

/-- In the order in which they are checked. -/
def all : List DependentOption :=
  [dumpMode, loadMode, orderFile, hotHeapSize, rescheduling]

/-- The name by which the option is given. -/
def name : DependentOption → String
  | dumpMode => "JBoltDumpMode"
  | loadMode => "JBoltLoadMode"
  | orderFile => "JBoltOrderFile"
  | hotHeapSize => "JBoltCodeHeapSize"
  | rescheduling => "JBoltRescheduling"

end DependentOption

/-- All settings of a virtual machine that concern its code cache. -/
structure Options where
  /-- Reorder hot code at all. -/
  enabled : Bool
  /-- Write the order of the hot methods down instead of moving them. -/
  dumpMode : Option Bool
  /-- Place the methods of an order file as they are compiled. -/
  loadMode : Option Bool
  /-- The order file of the dump and load modes. -/
  orderFile : Option String
  /-- Size of each managed partition. -/
  hotHeapSize : Option UInt64
  /-- Daily times of automatic reordering. -/
  rescheduling : Option String
  /-- One heap per kind of code instead of a single one. -/
  segmented : Bool
  /-- Compile in several tiers. -/
  tiered : Bool
  /-- Highest compilation tier in use. -/
  stopAtLevel : UInt8
  /-- Never compile. -/
  interpreterOnly : Bool
  nonMethodSize : UInt64
  profiledSize : UInt64
  nonProfiledSize : UInt64
  reservedSize : UInt64
  /-- Accepted and without effect. -/
  unlockExperimental : Bool
deriving DecidableEq, Repr

namespace Options

/-- A size given in mebibytes. -/
def ofMib (n : Nat) : UInt64 :=
  UInt64.ofNat (n * Size.mib)

/-- The settings in force when nothing is given. -/
def default : Options where
  enabled := false
  dumpMode := none
  loadMode := none
  orderFile := none
  hotHeapSize := none
  rescheduling := none
  segmented := true
  tiered := true
  stopAtLevel := 4
  interpreterOnly := false
  nonMethodSize := ofMib 8
  profiledSize := ofMib 116
  nonProfiledSize := ofMib 116
  reservedSize := ofMib 240
  unlockExperimental := false

instance : Inhabited Options := ⟨default⟩

/-- Size of a managed partition when none is given. -/
def defaultHotHeapSize : UInt64 := ofMib 8

def isDump (o : Options) : Bool :=
  o.dumpMode.getD false

def isLoad (o : Options) : Bool :=
  o.loadMode.getD false

/-- Neither dumping nor loading. -/
def isAuto (o : Options) : Bool :=
  !(o.isDump || o.isLoad)

/-- Size of each managed partition in bytes. -/
def hotHeap (o : Options) : Nat :=
  (o.hotHeapSize.getD defaultHotHeapSize).toNat

/-- The optimizing compiler can run. -/
def hasTopTier (o : Options) : Bool :=
  !o.interpreterOnly && (!o.tiered || decide (4 ≤ o.stopAtLevel.toNat))

/-- The profiling tier produces code. -/
def hasProfiledTier (o : Options) : Bool :=
  o.tiered && decide (1 < o.stopAtLevel.toNat)

/-- Whether a dependent option was given. -/
def isGiven (o : Options) : DependentOption → Bool
  | .dumpMode => o.dumpMode.isSome
  | .loadMode => o.loadMode.isSome
  | .orderFile => o.orderFile.isSome
  | .hotHeapSize => o.hotHeapSize.isSome
  | .rescheduling => o.rescheduling.isSome

end Options

/-- What reordering is asked to do. -/
inductive Mode where
  | off
  | auto
  | dump
  | load
deriving DecidableEq, Repr, Inhabited

namespace Mode

/-- The mode that a set of options selects. -/
def ofOptions (o : Options) : Mode :=
  if !o.enabled then off
  else if o.isDump then dump
  else if o.isLoad then load
  else auto

def name : Mode → String
  | off => "off"
  | auto => "auto"
  | dump => "dump"
  | load => "load"

end Mode

end CodeLayout
