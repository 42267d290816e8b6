import Ethereum.Params
import Ethereum.Tool.Arguments

/-!
# Log events

What the tool logs while it works: that protocol parameters were loaded, that a decoded block does
not fit its header, and that a block was assembled.
-/

namespace Ethereum.Tool

/-- Something that is logged. -/
inductive Event where
  | paramsLoaded (path : String) (params : ProtocolParams)
  | rootsDiffer (fault : BlockError)
  | blockAssembled (hash : Hash) (number : UInt64) (encoding : Encoding)
  deriving DecidableEq

/-- The value of a field of an event. -/
inductive FieldValue where
  | text (value : String)
  | number (value : UInt64)

/-- Protocol parameters on one line. -/
def renderParams (params : ProtocolParams) : String :=
  "ProtocolParams \x7b max_extra_data_size: " ++ toString params.maxExtraDataSize.toNat ++
    ", genesis_gas_limit: " ++ toString params.genesisGasLimit.toNat ++
    ", genesis_difficulty: " ++ toString params.genesisDifficulty.toNat ++
    ", min_gas_limit: " ++ toString params.minGasLimit.toNat ++ " \x7d"

/-- The name of a form of a block. -/
def Encoding.name : Encoding → String
  | .network => "Network"
  | .storage => "Storage"

namespace Event

/-- What all events are about. -/
def target : String := "frontier_tool"

/-- How much an event matters. -/
def level : Event → String
  | .rootsDiffer _ => "WARN"
  | .paramsLoaded _ _ | .blockAssembled _ _ _ => "INFO"

/-- What happened, in words. -/
def message : Event → String
  | .paramsLoaded _ _ => "protocol parameters loaded"
  | .rootsDiffer _ => "header roots do not match decoded body"
  | .blockAssembled _ _ _ => "block assembled"

/-- The details of an event. -/
def details : Event → List (String × FieldValue)
  | .paramsLoaded path params => [("path", .text path), ("params", .text (renderParams params))]
  | .rootsDiffer fault => [("error", .text fault.message)]
  | .blockAssembled hash number encoding =>
    [("hash", .text hash.toHex), ("number", .number number), ("encoding", .text encoding.name)]

/-- All fields of an event: what happened, and the details. -/
def fields (event : Event) : List (String × FieldValue) :=
  ("message", .text event.message) :: event.details

end Event

end Ethereum.Tool
