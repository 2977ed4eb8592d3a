import CodeLayout.Error

/-!
# Launch errors

Whatever ends a launch, with the lines that are printed about it.
-/

namespace CodeLayout

/-- Why a launch ended. -/
inductive LaunchError where
  /-- The configuration file is missing or does not hold a configuration. -/
  | config (detail : String)
  | unrecognizedOption (argument : String)
  | invalidLogOption (argument : String)
  /-- A machine option is unknown or has a bad value. -/
  | option (cause : ConfigError)
  /-- The machine could not be started, or failed later. -/
  | startup (fault : Fault)
  | file (cause : FileError)
deriving DecidableEq, Repr, Inhabited

namespace LaunchError

def message : LaunchError → String
  | config detail => "Configuration error: " ++ detail
  | unrecognizedOption argument => "Unrecognized option: " ++ argument
  | invalidLogOption argument => "Invalid -Xlog option: '" ++ argument ++ "'"
  | option cause => cause.message
  | startup fault => fault.message
  | file cause => "IO error: " ++ cause.message

/-- The machine itself failed; everything else went wrong before it. -/
def isStartup : LaunchError → Bool
  | startup _ => true
  | _ => false

/-- The lines printed about an error: a machine that failed has a heading,
everything else a closing line. -/
def report (e : LaunchError) : List String :=
  if e.isStartup then ["Error occurred during initialization of VM", e.message]
  else [e.message, "Error: Could not create the Java Virtual Machine."]

end LaunchError

end CodeLayout
