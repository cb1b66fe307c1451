import JvmCalls.Settings.Document

/-! Settings of the log: how much is written, and in which format. -/
namespace JvmCalls

structure LogOptions where
  verbose : Bool := false
  debug : Bool := false
  /-- One structured record a line instead of plain text. -/
  ecs : Bool := false
deriving DecidableEq, Repr, Inhabited

/-- Fields that are absent have their defaults, fields that are unknown are
ignored. -/
def LogOptions.ofDocument? (d : Document) : Option LogOptions := do
  let fields ← d.fields? ["verbose", "debug", "ecs"]
  let verbose ← Document.flagField? fields "verbose" false
  let debug ← Document.flagField? fields "debug" false
  let ecs ← Document.flagField? fields "ecs" false
  return ⟨verbose, debug, ecs⟩

def LogOptions.toDocument (o : LogOptions) : Document :=
  .record [("verbose", .flag o.verbose), ("debug", .flag o.debug), ("ecs", .flag o.ecs)]

theorem LogOptions.ofDocument?_toDocument (o : LogOptions) :
    LogOptions.ofDocument? o.toDocument = some o := by
  rfl

inductive LoggerError where
  /-- A process has one logger, and it is installed once. -/
  | alreadyInstalled
deriving DecidableEq, Repr

def LoggerError.message : LoggerError → String
  | alreadyInstalled =>
    "attempted to set a logger after the logging system was already initialized"

/-- Whether the log can be set up, in a process that has a logger or has
none. -/
def LogOptions.install (_options : LogOptions) (installed : Bool) : Except LoggerError Unit :=
  if installed then .error .alreadyInstalled else .ok ()

end JvmCalls
