import SecCask.Net.Channel
import SecCask.Coordinator.Lifecycle
import SecCask.Coordinator.Registration
import SecCask.Coordinator.Exit
import SecCask.Coordinator.Shutdown
import SecCask.Coordinator.Peers
import SecCask.Pipeman.Candidates
import SecCask.Pipeman.LibraryManager
import SecCask.Pipeman.PartialPut
import SecCask.Pipeman.Branching
import SecCask.Pipeman.PipelineLookup
import SecCask.Pipeman.Lineage
import SecCask.Pipeman.PrintedKeys
import SecCask.Archive.Damage
import SecCask.Pipeman.ArchiveFolder
import SecCask.Pipeman.Pep249History
import SecCask.Pipeman.Commands
import SecCask.Pipeman.Recommit
import SecCask.Pipeman.MergeTraining
import SecCask.Scheduling.Scheduler
import SecCask.Scheduling.Compatibility
import SecCask.Scheduling.Stranded
import SecCask.Scheduling.Eviction
import SecCask.Pac.UpdateLocality
import SecCask.Pac.Capacity
import SecCask.Pac.Window
import SecCask.Pac.Inclusion
import SecCask.Pac.Bookkeeping
import SecCask.Pipeman.Configuration
import SecCask.Pipeman.WorkspaceManager
import SecCask.Pipeman.ExecutionPlan
import SecCask.Pipeman.UStoreCLI
import SecCask.Lib.Csv
import SecCask.Pipeman.DatasetManager
