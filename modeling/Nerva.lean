import Nerva.Proofs.ForkRules
import Nerva.Proofs.RingMembers
import Nerva.Proofs.Sync
import Nerva.Proofs.Ledger
import Nerva.Proofs.BlockCache
import Nerva.Proofs.ChainFill
import Nerva.Proofs.Dandelionpp
import Nerva.Proofs.ForkVotes
import Nerva.Proofs.Longhash
import Nerva.Proofs.PeerList
import Nerva.Proofs.NewConnection
import Nerva.Proofs.Bans
import Nerva.Proofs.Blobs
import Nerva.Proofs.LongTerm
import Nerva.Proofs.ThreadPool
import Nerva.Proofs.Batches
import Nerva.Proofs.Detach
import Nerva.Proofs.Imports
import Nerva.Proofs.Received
import Nerva.Proofs.Base58
import Nerva.Proofs.Checkpoints
import Nerva.Proofs.Fluffy
import Nerva.Proofs.Fragments
import Nerva.Proofs.Mnemonics
import Nerva.Proofs.Stripes
import Nerva.Proofs.PastTimestamp
import Nerva.Proofs.RefusedBlock
import Nerva.Proofs.Decoys
import Nerva.Proofs.Distribution
import Nerva.Proofs.AltEmission
import Nerva.Proofs.Serving
import Nerva.Proofs.CheckHash
import Nerva.Proofs.Permutation
