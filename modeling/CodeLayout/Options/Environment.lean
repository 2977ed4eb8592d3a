import CodeLayout.Options

/-!
# Options from the environment

Four variables preset an option each.  A size that cannot be read is ignored.
-/

namespace CodeLayout

/-- Environment variables with their values; the first entry of a name
counts. -/
abbrev Environment := List (String × String)

namespace Options

/-- The texts that switch reordering on: the digit one, or the word `true` in
any mixture of upper and lower case. -/
def isAffirmative (text : String) : Bool :=
  text = "1" || text.toList.map Char.toLower = "true".toList

/-- The variables that preset an option. -/
def variableNames : List String :=
  ["JBOLT_USE", "JBOLT_ORDER_FILE", "JBOLT_CODE_HEAP_SIZE", "JBOLT_RESCHEDULING"]

/-- The default options with the presets of the environment. -/
def ofEnvironment (env : Environment) : Options :=
  let o := default
  let o := match env.lookup "JBOLT_USE" with
    | some text => { o with enabled := isAffirmative text }
    | none => o
  let o := match env.lookup "JBOLT_ORDER_FILE" with
    | some path => { o with orderFile := some path }
    | none => o
  let o := match (env.lookup "JBOLT_CODE_HEAP_SIZE").bind Size.parse? with
    | some bytes => { o with hotHeapSize := some (UInt64.ofNat bytes) }
    | none => o
  match env.lookup "JBOLT_RESCHEDULING" with
  | some times => { o with rescheduling := some times }
  | none => o

end Options

end CodeLayout
