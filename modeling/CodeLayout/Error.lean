import CodeLayout.Options
import CodeLayout.Partition

/-!
# Errors

Three layers, each with the cause as its value and the wording in `message`:

* `ConfigError`: the options contradict each other or cannot be read;
* `FileError`: the file system refuses an access;
* `Fault`: anything that can go wrong once the options are accepted, and the
  two above where they come up in that work.
-/

namespace CodeLayout

/-- A fault in the options.  `message` is the exact diagnostic. -/
inductive ConfigError where
  /-- A dependent option is given while reordering is off. -/
  | notEnabled (option : DependentOption)
  | conflictingModes
  | needsTopTier
  | needsSegmentation
  | orderFileUnset
  | orderFileInaccessible (path : String)
  | scheduleEmpty
  | scheduleTooLong
  | invalidTime (token : String)
  | unalignedHeap (alignment : Nat)
  | heapTooLarge (size : Nat)
  | notEnoughSpace (availableKib wantedKib : Nat)
  | unrecognizedOption (text : String)
  | invalidValue (option value : String)
deriving DecidableEq, Repr, Inhabited

namespace ConfigError

def message : ConfigError → String
  | notEnabled option =>
    "Do not set VM option " ++ option.name ++ " without UseJBolt enabled."
  | conflictingModes => "Do not set both JBoltDumpMode and JBoltLoadMode!"
  | needsTopTier => "JBolt depends on C2!"
  | needsSegmentation => "JBolt depends on SegmentedCodeCache!"
  | orderFileUnset => "JBoltOrderFile is not set!"
  | orderFileInaccessible path =>
    "JBoltOrderFile does not exist or cannot be accessed! file=\"" ++ path ++ "\"."
  | scheduleEmpty => "JBoltRescheduling is set but is null"
  | scheduleTooLong => "JBoltRescheduling is too long"
  | invalidTime token => "Invalid time " ++ token ++ " in JBoltRescheduling"
  | unalignedHeap alignment =>
    "JBoltCodeHeapSize should be " ++ Digits.text alignment ++ " aligned, please adjust"
  | heapTooLarge size =>
    "JBoltCodeHeapSize=" ++ Digits.text size ++ " is too large to split out of the code cache"
  | notEnoughSpace availableKib wantedKib =>
    "Not enough space in non-profiled code heap to split out JBolt heap(s): " ++
      Digits.text availableKib ++ "K <= " ++ Digits.text wantedKib ++ "K"
  | unrecognizedOption text => "Unrecognized VM option '" ++ text ++ "'"
  | invalidValue option value =>
    "Improperly specified VM option '" ++ option ++ "=" ++ value ++ "'"

/-- An option is given where it may not be given at all. -/
def isPrecondition : ConfigError → Bool
  | notEnabled _ => true
  | _ => false

/-- The text of an option cannot be read. -/
def isMalformed : ConfigError → Bool
  | scheduleEmpty | scheduleTooLong | invalidTime _ | unrecognizedOption _
  | invalidValue _ _ => true
  | _ => false

end ConfigError

/-- A refused access to the file system. -/
inductive FileError where
  | notFound
  | notADirectory
  | isADirectory
  | alreadyExists
  | invalidData
  | invalidPath
  | nameTooLong
deriving DecidableEq, Repr, Inhabited

namespace FileError

def message : FileError → String
  | notFound => "No such file or directory (os error 2)"
  | notADirectory => "Not a directory (os error 20)"
  | isADirectory => "Is a directory (os error 21)"
  | alreadyExists => "File exists (os error 17)"
  | invalidData => "stream did not contain valid UTF-8"
  | invalidPath => "file name contained an unexpected NUL byte"
  | nameTooLong => "File name too long (os error 36)"

end FileError

/-- Anything that can go wrong while code is placed, moved and written down. -/
inductive Fault where
  | config (cause : ConfigError)
  /-- No partition of the order tried has a large enough free range. -/
  | full (partition : Partition) (requested : Nat)
  | inactive (partition : Partition)
  | unknownMethod (method : String)
  /-- Code was to be moved while its users run. -/
  | relocationRace (method : String)
  | malformedOrder (detail : String)
  /-- There is no order yet that could be written. -/
  | noOrder
  | file (cause : FileError)
  /-- A rule of this library's own is broken. -/
  | internal (detail : String)
deriving DecidableEq, Repr, Inhabited

namespace Fault

def message : Fault → String
  | config cause => cause.message
  | full partition requested =>
    partition.name ++ " is full: requested " ++ Digits.text requested ++ " bytes"
  | inactive partition => "Code heap " ++ partition.name ++ " is not active"
  | unknownMethod method => "Unknown method: " ++ method
  | relocationRace method => "Relocation attempted outside of a safepoint: " ++ method
  | malformedOrder detail => detail
  | noOrder => "No JBolt order is available to dump yet"
  | file cause => "IO error: " ++ cause.message
  | internal detail => "Internal error: " ++ detail

/-- The work can go on without the failed step. -/
def isRecoverable : Fault → Bool
  | full .. | unknownMethod _ | noOrder => true
  | _ => false

/-- The fault shows a broken rule of this library. -/
def isBug : Fault → Bool
  | relocationRace _ | internal _ => true
  | _ => false

/-- The fault ends the start of the machine. -/
def isFatalAtStartup : Fault → Bool
  | config _ | malformedOrder _ => true
  | _ => false

/-- Some allocation found no room. -/
def isFull : Fault → Bool
  | full .. => true
  | _ => false

end Fault

end CodeLayout
