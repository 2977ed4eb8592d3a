import CodeLayout.Document
import CodeLayout.Options

/-!
# Options as a record

The names under which the options stand in configuration files and messages,
in the order in which they are written.  Reading checks the type and the range
of each value and nothing else: the limits of the command line do not apply.
-/

namespace CodeLayout.Options

/-- The name of each option with the way to read its value. -/
def fields : List (String × (Options → Document → Option Options)) :=
  let size (d : Document) : Option UInt64 := (d.below? Size.wordLimit).map UInt64.ofNat
  [("UseJBolt", fun o d => d.flag?.map fun v => { o with enabled := v }),
   ("JBoltDumpMode", fun o d => (d.nullable? Document.flag?).map fun v => { o with dumpMode := v }),
   ("JBoltLoadMode", fun o d => (d.nullable? Document.flag?).map fun v => { o with loadMode := v }),
   ("JBoltOrderFile",
      fun o d => (d.nullable? Document.text?).map fun v => { o with orderFile := v }),
   ("JBoltCodeHeapSize", fun o d => (d.nullable? size).map fun v => { o with hotHeapSize := v }),
   ("JBoltRescheduling",
     fun o d => (d.nullable? Document.text?).map fun v => { o with rescheduling := v }),
   ("SegmentedCodeCache", fun o d => d.flag?.map fun v => { o with segmented := v }),
   ("TieredCompilation", fun o d => d.flag?.map fun v => { o with tiered := v }),
   ("TieredStopAtLevel",
     fun o d => (d.below? 256).map fun v => { o with stopAtLevel := UInt8.ofNat v }),
   ("NonNMethodCodeHeapSize", fun o d => (size d).map fun v => { o with nonMethodSize := v }),
   ("ProfiledCodeHeapSize", fun o d => (size d).map fun v => { o with profiledSize := v }),
   ("NonProfiledCodeHeapSize", fun o d => (size d).map fun v => { o with nonProfiledSize := v }),
   ("ReservedCodeCacheSize", fun o d => (size d).map fun v => { o with reservedSize := v }),
   ("UnlockExperimentalVMOptions",
     fun o d => d.flag?.map fun v => { o with unlockExperimental := v })]

/-- Read the options; what is not given keeps its default. -/
def ofDocument? : Document → Option Options :=
  Document.record? fields default

/-- The options by name, in writing order. -/
def toEntries (o : Options) : List (String × Document) :=
  let size (n : UInt64) : Document := .integer n.toNat
  let optional {α : Type} (write : α → Document) (v : Option α) : Document :=
    (v.map write).getD .null
  [("UseJBolt", .flag o.enabled),
   ("JBoltDumpMode", optional .flag o.dumpMode),
   ("JBoltLoadMode", optional .flag o.loadMode),
   ("JBoltOrderFile", optional .text o.orderFile),
   ("JBoltCodeHeapSize", optional size o.hotHeapSize),
   ("JBoltRescheduling", optional .text o.rescheduling),
   ("SegmentedCodeCache", .flag o.segmented),
   ("TieredCompilation", .flag o.tiered),
   ("TieredStopAtLevel", .integer o.stopAtLevel.toNat),
   ("NonNMethodCodeHeapSize", size o.nonMethodSize),
   ("ProfiledCodeHeapSize", size o.profiledSize),
   ("NonProfiledCodeHeapSize", size o.nonProfiledSize),
   ("ReservedCodeCacheSize", size o.reservedSize),
   ("UnlockExperimentalVMOptions", .flag o.unlockExperimental)]

end CodeLayout.Options
