import Allegro.Lib.Run
import Allegro.Lib.Network
import Allegro.Lib.Restart
import Allegro.Lib.Server
import Allegro.Lib.Erasure
import Allegro.Lib.Accounting
import Allegro.Lib.Service
import Allegro.Lib.Fifo
import Allegro.Lib.Fallible
import Allegro.Lib.Rlp
import Allegro.Lib.RlpList
import Allegro.Lib.Json
import Allegro.Lib.Text
import Allegro.Primitives
import Allegro.Header
import Allegro.Executor
import Allegro.Validators
import Allegro.Application
import Allegro.Engine
import Allegro.EngineSteps
import Allegro.Builder
import Allegro.Node
import Allegro.GenesisFile
import Allegro.Xtask
import Allegro.Chainspec
import Allegro.Main
import Allegro.DigestBinding
import Allegro.GenesisRecord
import Allegro.ParentChain
import Allegro.HonestStores
import Allegro.Agreement
import Allegro.Arrival
import Allegro.Anchor
import Allegro.ProposeParent
import Allegro.FinalizerRace
import Allegro.Tracker
import Allegro.Displacement
import Allegro.Resolvable
import Allegro.Timestamps
import Allegro.AllegroConsensus
import Allegro.ClockBound
import Allegro.HeaderCodec
import Allegro.GenesisReload
import Allegro.Launch
import Allegro.Requests
import Allegro.Poisoned
import Allegro.Forwarding
import Allegro.Metrics
import Allegro.ParentHash
import Allegro.TrailingBytes
import Allegro.Config
import Allegro.StartEngine
import Allegro.Duplicates
import Allegro.Uniqueness
import Allegro.Block
import Allegro.Lengths
import Allegro.Serving
import Allegro.Finality
import Allegro.OwnProposals
import Allegro.Cluster
import Allegro.ClusterFinality
import Allegro.Unsolicited
import Allegro.Counters
import Allegro.Loopback
import Allegro.Startup
import Allegro.Devnet
import Allegro.EngineApi
import Allegro.Refusals
import Allegro.Acceptance
import Allegro.FinalityService
import Allegro.TreeRefinement
