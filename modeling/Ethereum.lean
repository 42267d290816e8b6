import Ethereum.Block.Order
import Ethereum.Block.Render
import Ethereum.Bytes.Lemmas
import Ethereum.Main
import Ethereum.Proofs.Trie.Ordered
import Ethereum.Tool.FileTree
import Ethereum.Proofs.Block.Commitment
import Ethereum.Proofs.Header
import Ethereum.Proofs.Block.Interleaving
import Ethereum.Proofs.Rlp.SelfDelimiting
import Ethereum.Proofs.Block.Fault
import Ethereum.Proofs.Block.Element
import Ethereum.Proofs.Text.Hex
import Ethereum.Proofs.Tool.Build
import Ethereum.Proofs.Rlp.Announced
import Ethereum.Proofs.Block.Identity
import Ethereum.Proofs.Bloom
import Ethereum.Proofs.Tool.Agreement
import Ethereum.Proofs.Block.Order
import Ethereum.Proofs.Rlp.Payload
import Ethereum.Proofs.Block.Lookup
import Ethereum.Proofs.Text.Grammar
import Ethereum.Proofs.Tool.Admission
import Ethereum.Proofs.Rlp.Progress
import Ethereum.Proofs.Tool.Printed
import Ethereum.Proofs.Tool.FileTree
