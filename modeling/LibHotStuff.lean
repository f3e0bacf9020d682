import LibHotStuff.Library.Quorum
import LibHotStuff.Library.LockedVotes
import LibHotStuff.Library.Transition
import LibHotStuff.Model.Network
import LibHotStuff.Proofs.RseRoundTrip
import LibHotStuff.Proofs.ExecutionChain
import LibHotStuff.Proofs.Agreement
import LibHotStuff.Proofs.Finality
import LibHotStuff.Proofs.Beats
import LibHotStuff.Proofs.WireCertificate
import LibHotStuff.Proofs.VotesMatch
import LibHotStuff.Proofs.Delivered
import LibHotStuff.Model.Delivery
import LibHotStuff.Proofs.Delivery
import LibHotStuff.Proofs.DeliveredDag
import LibHotStuff.Proofs.FetchWaiting
import LibHotStuff.Proofs.SliceBinding
import LibHotStuff.Model.Messages
import LibHotStuff.Proofs.Parsing
import LibHotStuff.Proofs.Sturdy
import LibHotStuff.Proofs.MessageSafety
import LibHotStuff.Proofs.Integrity
import LibHotStuff.Proofs.MerkleProofs
import LibHotStuff.Proofs.ShardCounter
import LibHotStuff.Proofs.SliceRange
import LibHotStuff.Proofs.RseSafety
import LibHotStuff.Proofs.Release
import LibHotStuff.Proofs.FailedProposals
import LibHotStuff.Proofs.CommitLoop
import LibHotStuff.Proofs.QcWaiting
import LibHotStuff.Proofs.Pruning
import LibHotStuff.Proofs.AncestorWalks
import LibHotStuff.Proofs.Tails
import LibHotStuff.Proofs.VeriPool
import LibHotStuff.Proofs.PruneEffect
import LibHotStuff.Proofs.DeliveryWaiting
import LibHotStuff.Proofs.DeliveryProgress
import LibHotStuff.Proofs.DecidedCommands
import LibHotStuff.Proofs.Availability
import LibHotStuff.Proofs.SubmittedCommands
import LibHotStuff.Proofs.AtMostOnce
import LibHotStuff.Proofs.Replies
import LibHotStuff.Proofs.Confirmations
import LibHotStuff.Proofs.Transport
import LibHotStuff.Model.PeerNetwork
import LibHotStuff.Proofs.PeerNetwork
import LibHotStuff.Proofs.PeerSafety
