import AgentChain.QuorumIntersection
import AgentChain.ChainInvariant
import AgentChain.Replicas
import AgentChain.Restart
import AgentChain.Supply
import AgentChain.Crash
import AgentChain.Builder
import AgentChain.Equivocation
import AgentChain.LockedBlock
import AgentChain.VoteValidity
import AgentChain.Agreement
import AgentChain.StateBytes
import AgentChain.Rejected
import AgentChain.Nonces
import AgentChain.Selection
import AgentChain.VoteDelivery
import AgentChain.FundMoves
import AgentChain.HeaderBounds
import AgentChain.FoldedSigners
import AgentChain.Gates
import AgentChain.Indexes
import AgentChain.CodecCanonical
import AgentChain.RewardPool
import AgentChain.EpochSeeds
import AgentChain.LiveWeight
import AgentChain.UnstakedProposers
import AgentChain.Includable
import AgentChain.SquareRoot
import AgentChain.Priority
import AgentChain.BaseFee
import AgentChain.BlockWire
import AgentChain.GapRequests
import AgentChain.Hello
import AgentChain.AddressHistory
import AgentChain.CommittedFrames
import AgentChain.CatchUp
import AgentChain.Link
import AgentChain.PeerRoutes
import AgentChain.StalePool
import AgentChain.ForgedBody
import AgentChain.DiskMachine
import AgentChain.SlotLoop
