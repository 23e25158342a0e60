import Zul.Bridge.Attribution
import Zul.Bridge.Batch
import Zul.Bridge.DaLog
import Zul.Bridge.Recover
import Zul.Bridge.Rpc
import Zul.Bridge.Settled
import Zul.Bridge.WireFormats
import Zul.Executor.Atomicity
import Zul.Executor.Block
import Zul.Indexer.Base58
import Zul.Indexer.Complete
import Zul.Indexer.Decode
import Zul.Indexer.Tick
import Zul.Indexer.Wire
import Zul.Lib.Base64
import Zul.Lib.Bits
import Zul.Lib.ByteOrder
import Zul.Lib.FixedCodec
import Zul.Lib.HashTree
import Zul.Lib.Json
import Zul.Lib.Ledger
import Zul.Lib.Lists
import Zul.Lib.MerkleTree
import Zul.Lib.PartialMap
import Zul.Lib.Reads
import Zul.Lib.RingBuffer
import Zul.Lib.SparseTree
import Zul.Lib.Table
import Zul.Lib.Unspent
import Zul.Lib.Words
import Zul.Node.Accepted
import Zul.Node.Accounted
import Zul.Node.BlockReads
import Zul.Node.Bridge
import Zul.Node.Buffers
import Zul.Node.Chain
import Zul.Node.Claimable
import Zul.Node.Completeness
import Zul.Node.Conservation
import Zul.Node.Credits
import Zul.Node.Crossing
import Zul.Node.DepositTotals
import Zul.Node.Included
import Zul.Node.L1
import Zul.Node.Lifecycle
import Zul.Node.Mempool
import Zul.Node.Ownership
import Zul.Node.Pool
import Zul.Node.PoolCommit
import Zul.Node.PoolReads
import Zul.Node.PoolWrites
import Zul.Node.PostedRoot
import Zul.Node.Posting
import Zul.Node.Produce
import Zul.Node.ReadFaults
import Zul.Node.Reads
import Zul.Node.Reassembly
import Zul.Node.Rebuild
import Zul.Node.Receipts
import Zul.Node.Release
import Zul.Node.Replay
import Zul.Node.Routing
import Zul.Node.Run
import Zul.Node.Solvency
import Zul.Node.Stalled
import Zul.Node.Tokens
import Zul.Node.Value
import Zul.Node.Watcher
import Zul.Node.WithdrawSmt
import Zul.Node.WithdrawView
import Zul.Primitives.Basic
import Zul.Primitives.Block
import Zul.Primitives.Genesis
import Zul.Primitives.Reader
import Zul.Primitives.TransactionsRoot
import Zul.Primitives.WrappedSpl
import Zul.Privacy.Backing
import Zul.Privacy.Binding
import Zul.Privacy.CircuitValue
import Zul.Privacy.Circuits
import Zul.Privacy.Commitments
import Zul.Privacy.Groth16
import Zul.Privacy.Insertions
import Zul.Privacy.Instruction
import Zul.Privacy.MoveTotals
import Zul.Privacy.Moves
import Zul.Privacy.Notes
import Zul.Privacy.Nullifiers
import Zul.Privacy.Processor
import Zul.Privacy.Rejected
import Zul.Privacy.Service
import Zul.Privacy.State
import Zul.Privacy.Tree
import Zul.Privacy.Underway
import Zul.Privacy.Vault
import Zul.Privacy.Verifier
import Zul.Sdk.Balance
import Zul.Sdk.Exit
import Zul.Sdk.Instruction
import Zul.Sdk.Merkle
import Zul.Sdk.Notes
import Zul.Sdk.Pool
import Zul.Settlement.Batches
import Zul.Settlement.Ledger
import Zul.Settlement.Program
import Zul.Settlement.ProofCheck
import Zul.Store.Account
import Zul.Store.AddressIndex
import Zul.Store.BlockhashQueue
import Zul.Store.CanonicalRoot
import Zul.Store.Commit
import Zul.Store.GenesisIdentity
import Zul.Store.Index
import Zul.Store.LeafMap
import Zul.Store.Smt
import Zul.Store.StateProofs
import Zul.Store.StateRoot
import Zul.Store.Store
