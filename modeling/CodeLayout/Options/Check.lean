import CodeLayout.Error

/-!
# Checks on the options

The checks that need nothing but the options, in the order in which they are
made: dependent options without the switch, contradicting modes, missing
compiler tier, missing segmentation.
-/

namespace CodeLayout.Options

/-- Dependent options may not be given while reordering is off. -/
def checkDependents (o : Options) : Except ConfigError Unit :=
  if o.enabled then .ok ()
  else match DependentOption.all.find? o.isGiven with
    | some option => .error (.notEnabled option)
    | none => .ok ()

/-- Dumping and loading exclude each other. -/
def checkMode (o : Options) : Except ConfigError Unit :=
  if o.isDump && o.isLoad then .error .conflictingModes else .ok ()

/-- Reordering needs the optimizing compiler and a segmented cache. -/
def checkDependency (o : Options) : Except ConfigError Unit :=
  if !o.hasTopTier then .error .needsTopTier
  else if !o.segmented then .error .needsSegmentation
  else .ok ()

/-- All checks; with reordering off only the first applies. -/
def validate (o : Options) : Except ConfigError Unit := do
  o.checkDependents
  if o.enabled then
    o.checkMode
    o.checkDependency

end CodeLayout.Options
