import Overseer.CommandLine.Recording
import Overseer.CommandLine.Run
import Overseer.Lines.Stream
import Overseer.Listening
import Overseer.Main
import Overseer.Proofs.BoundedRun.Outcomes
import Overseer.Proofs.CommandLine.Aftermath
import Overseer.Proofs.Lines.FailedSteps
import Overseer.Proofs.Lines.Joining
import Overseer.Proofs.Lines.Renewal
import Overseer.Proofs.Listening.WaitLeftOut
import Overseer.Proofs.Listening.WaitOutcomes
import Overseer.Proofs.Octets.Encoding
import Overseer.Proofs.OutputLog.Deliveries
import Overseer.Proofs.Registry.Succession
import Overseer.Proofs.Registry.Tracking
import Overseer.Proofs.Session.EndCallers
import Overseer.Proofs.Session.Readiness
import Overseer.Proofs.Settings.Loading
import Overseer.Proofs.Supervision.Snapshots
import Overseer.Proofs.Teardown.Independence
import Overseer.Proofs.Tree.DeathWaits
import Overseer.Proofs.Tree.Enumeration
import Overseer.Proofs.Tree.Promptness
import Overseer.Readers
import Overseer.Roster
import Overseer.Session
