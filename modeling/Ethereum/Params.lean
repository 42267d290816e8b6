import Ethereum.Error

/-!
# Protocol parameters

The bounds that a network sets on its blocks. Those of the main network are the defaults.
-/

namespace Ethereum

/-- The bounds of a network. -/
structure ProtocolParams where
  /-- The most bytes of extra data that a header may have. -/
  maxExtraDataSize : UInt64 := 1024
  /-- The gas limit of the first block. -/
  genesisGasLimit : UInt64 := 3141592
  /-- The difficulty of the first block. -/
  genesisDifficulty : UInt64 := 131072
  /-- The least gas limit of any block. -/
  minGasLimit : UInt64 := 125000
  deriving DecidableEq, Inhabited

namespace ProtocolParams

/-- Refuses parameters under which the first block would break the bound on gas limits. -/
def validate (params : ProtocolParams) : Except BlockError Unit :=
  if params.genesisGasLimit < params.minGasLimit then
    .error (.invalidParams (.gasLimitBelowMinimum params.genesisGasLimit params.minGasLimit))
  else .ok ()

/-- Refuses extra data that is longer than the bound. -/
def checkExtraData (params : ProtocolParams) (extra : Bytes) : Except BlockError Unit :=
  if params.maxExtraDataSize.toNat < extra.length then
    .error (.extraDataTooLong extra.length params.maxExtraDataSize.toNat)
  else .ok ()

end ProtocolParams

end Ethereum
