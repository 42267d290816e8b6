import Ethereum.Block.Mutation
import Ethereum.Block.Wire
import Ethereum.Params
import Ethereum.Tool.Arguments
import Ethereum.Tool.Error

/-!
# Building a block

The command `build` reads its arguments in a fixed order, so that the first bad one is reported:
parent, coinbase, state root, extra data, the length of that, gas limit. The block has an empty
body, and difficulty and gas limit are those of the first block where none are given.
-/

namespace Ethereum.Tool

/-- The result of a step, its fault in the terms of the command. -/
def orFault {ε α : Type} (result : Except ε α) (fault : ε → Fault) : Except Fault α :=
  match result with
  | .ok value => .ok value
  | .error cause => .error (fault cause)

variable [HashFunction]

/-- The block that arguments ask for under the given parameters. `now` is its time if they name
none. -/
def assemble (arguments : BuildArguments) (params : ProtocolParams) (now : UInt64) :
    Except Fault Block := do
  let parent ← orFault (Hex.decodeFixed 32 arguments.parent.toList) .parentInvalid
  let coinbase ← orFault (Hex.decodeFixed 20 arguments.coinbase.toList) .coinbaseInvalid
  let stateRoot ← orFault (Hex.decodeFixed 32 arguments.stateRoot.toList) .stateRootInvalid
  let extra ← orFault (Hex.decodeInput arguments.extra.toList) .extraNotHex
  orFault (params.checkExtraData extra) .extraTooLong
  let difficulty := arguments.difficulty.getD params.genesisDifficulty
  let gasLimit := arguments.gasLimit.getD params.genesisGasLimit
  if gasLimit < params.minGasLimit then
    .error (.gasLimitBelowMinimum gasLimit params.minGasLimit)
  else
    let start := Block.fresh parent coinbase stateRoot (BitVec.ofNat 256 difficulty.toNat)
      arguments.nonce extra (arguments.time.getD now)
    .ok <| start.run
      [.setNumber (BitVec.ofNat 256 arguments.number.toNat),
        .setGasLimit (BitVec.ofNat 256 gasLimit.toNat),
        .setTotalDifficulty (arguments.totalDifficulty.map fun td => BitVec.ofNat 256 td.toNat)]

/-- A block in the form that is asked for. -/
def Encoding.bytes (encoding : Encoding) (block : Block) : Bytes :=
  match encoding with
  | .network => block.networkBytes
  | .storage => block.storageBytes

end Ethereum.Tool
