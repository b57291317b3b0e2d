import PagedTraversal.Main
import PagedTraversal.Proofs.Graph.FirstFault
import PagedTraversal.Proofs.Graph.RoundTrip
import PagedTraversal.Proofs.Paging.InFlight
import PagedTraversal.Proofs.Paging.LifeCycle
import PagedTraversal.Proofs.Paging.Requests
import PagedTraversal.Proofs.Paging.Redelivery
import PagedTraversal.Proofs.Pager.Report
import PagedTraversal.Proofs.ResultSet.FailedStream
import PagedTraversal.Proofs.ResultSet.Agreement
import PagedTraversal.Proofs.ResultSet.Recovery
import PagedTraversal.Proofs.Graph.AccessPath
import PagedTraversal.Proofs.Graph.FaultLocation
import PagedTraversal.Proofs.Json.Equality
import PagedTraversal.Proofs.Graph.Congruence
import PagedTraversal.Proofs.Double.WholeNumber
import PagedTraversal.Proofs.Graph.Equality
import PagedTraversal.Proofs.ResultSet.Readings
import PagedTraversal.Proofs.Paging.Handles
import PagedTraversal.Proofs.Paging.Dryness
import PagedTraversal.Proofs.ResultSet.Prefetching
import PagedTraversal.Proofs.Paging.Peeking
import PagedTraversal.Proofs.Paging.PageReports
import PagedTraversal.Proofs.Graph.UnknownMembers
import PagedTraversal.Proofs.Paging.Partition
import PagedTraversal.Proofs.Paging.Joining
import PagedTraversal.Proofs.ResultSet.Reader
import PagedTraversal.Proofs.ResultSet.CursorProtocol
import PagedTraversal.Proofs.Graph.PathPairing
import PagedTraversal.Proofs.Paging.FetchLog
import PagedTraversal.Proofs.Graph.Serialization
import PagedTraversal.Proofs.Settings.Loaders
import PagedTraversal.Proofs.Settings.Numerals
import PagedTraversal.Proofs.Paging.Offsets
