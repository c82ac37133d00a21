import PlatformOps.Common.Database
import PlatformOps.Cost.AddsUp
import PlatformOps.Cost.Bursts
import PlatformOps.Cost.FairShares
import PlatformOps.Cost.ParseCache
import PlatformOps.Cost.Redacted
import PlatformOps.Cost.SameRecords
import PlatformOps.Cost.Unused
import PlatformOps.Incidents.ArrivalOrder
import PlatformOps.Incidents.Attribution
import PlatformOps.Incidents.Announced
import PlatformOps.Incidents.RaiseHistory
import PlatformOps.Incidents.Delivered
import PlatformOps.Incidents.FreshFailures
import PlatformOps.Incidents.GroupingCorrect
import PlatformOps.Incidents.Merging
import PlatformOps.Incidents.Migrations
import PlatformOps.Incidents.OneOpen
import PlatformOps.Incidents.Recovery
import PlatformOps.Incidents.Rerouting
import PlatformOps.Incidents.Resolution
import PlatformOps.Incidents.RunTable
import PlatformOps.Incidents.Sessions
import PlatformOps.Incidents.Told
import PlatformOps.Incidents.Unheard
import PlatformOps.Metadata.Check
import PlatformOps.Metadata.CoverEnds
import PlatformOps.Metadata.Specificity
import PlatformOps.Metadata.StarterCovers
import PlatformOps.Metadata.TraceExact
import PlatformOps.Reconcile.Balance
import PlatformOps.Reconcile.Classified
import PlatformOps.Reconcile.Cutover
import PlatformOps.Reconcile.DiffExact
import PlatformOps.Reconcile.DriftContained
import PlatformOps.Reconcile.Duplicates
import PlatformOps.Reconcile.Explained
import PlatformOps.Reconcile.FreezeEnds
import PlatformOps.Reconcile.Numbers
import PlatformOps.Reconcile.RowStrings
import PlatformOps.Reconcile.Undisturbed
import PlatformOps.Simulation.Convergence
import PlatformOps.Simulation.CrashSafety
import PlatformOps.Simulation.AsOfWatermark
import PlatformOps.Simulation.Arrivals
import PlatformOps.Simulation.ParallelNights
import PlatformOps.Simulation.WatchedProduction
import PlatformOps.Simulation.FixedNight
