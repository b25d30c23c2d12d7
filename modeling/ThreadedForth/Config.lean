/-!
# Capacities of a machine

A configuration gives the size of each bounded area. The system area at the bottom of data space
holds the input offset, the compilation state and the input buffer; a valid configuration leaves at
least one byte beyond it.
-/

namespace ThreadedForth

/-- The areas whose size is configurable. -/
inductive Area where
  | dataSpace
  | dataStack
  | returnStack
  | dictionary
  | inputBuffer
  deriving DecidableEq, Repr

/-- The name of an area in messages. -/
def Area.label : Area → String
  | .dataSpace => "data space"
  | .dataStack => "data stack"
  | .returnStack => "return stack"
  | .dictionary => "dictionary"
  | .inputBuffer => "input buffer"

/-- The largest capacity an area may be given. -/
def Area.maximum : Area → Nat
  | .dataSpace | .inputBuffer => 0x40000000
  | .dataStack | .returnStack | .dictionary => 0x100000

/-- The capacities of a machine: bytes of data space and input buffer, cells of each stack,
definitions. -/
structure Config where
  dataSpace : Nat := 65536
  dataStack : Nat := 256
  returnStack : Nat := 256
  dictionary : Nat := 1024
  inputBuffer : Nat := 256
  deriving DecidableEq, Repr

/-- The reasons for which a configuration is rejected. -/
inductive ConfigError where
  | zeroCapacity (area : Area)
  | capacityTooLarge (area : Area) (value maximum : Nat)
  | dataSpaceTooSmall (dataSpace required : Nat)
  deriving DecidableEq, Repr

/-- The text that explains a rejected configuration. -/
def ConfigError.message : ConfigError → String
  | .zeroCapacity area => area.label ++ " capacity must be greater than zero"
  | .capacityTooLarge area value maximum =>
      area.label ++ " capacity " ++ toString value ++ " exceeds the maximum of " ++ toString maximum
  | .dataSpaceTooSmall dataSpace required =>
      "data space of " ++ toString dataSpace ++ " bytes leaves no room after the " ++
      toString required ++
        "-byte system area"

/-- The address of the cell that holds the offset of the parse position in the current line. -/
def toInAddress : Nat := 0

/-- The address of the cell that is nonzero while compiling. -/
def stateAddress : Nat := 8

/-- The address of the input buffer. -/
def inputAddress : Nat := 16

namespace Config

/-- The capacity given to an area. -/
def capacity (config : Config) : Area → Nat
  | .dataSpace => config.dataSpace
  | .dataStack => config.dataStack
  | .returnStack => config.returnStack
  | .dictionary => config.dictionary
  | .inputBuffer => config.inputBuffer

/-- The number of bytes at the bottom of data space that belong to the system. -/
def systemArea (config : Config) : Nat := inputAddress + config.inputBuffer

/-- Refuse a capacity above the area's maximum. -/
def requireBounded (config : Config) (area : Area) : Except ConfigError Unit :=
  if area.maximum < config.capacity area then
    .error (.capacityTooLarge area (config.capacity area) area.maximum)
  else .ok ()

/-- Refuse an empty area and a capacity above the area's maximum. -/
def requireUsable (config : Config) (area : Area) : Except ConfigError Unit :=
  if config.capacity area = 0 then .error (.zeroCapacity area) else config.requireBounded area

/-- Accept a configuration whose areas are usable and whose data space extends beyond the system
area. -/
def validate (config : Config) : Except ConfigError Unit := do
  config.requireUsable .dataSpace
  config.requireUsable .dataStack
  config.requireUsable .returnStack
  config.requireUsable .dictionary
  config.requireBounded .inputBuffer
  if config.dataSpace ≤ config.systemArea then
    .error (.dataSpaceTooSmall config.dataSpace config.systemArea)
  else .ok ()

end Config

end ThreadedForth
