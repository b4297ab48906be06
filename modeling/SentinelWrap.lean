import SentinelWrap.CommandLine.Verbosity
import SentinelWrap.Main
import SentinelWrap.Proofs.Command.ExitCode
import SentinelWrap.Proofs.Config.Nearest
import SentinelWrap.Proofs.Report.Color
import SentinelWrap.Proofs.Report.RoundTrip
import SentinelWrap.Proofs.Syntax.Events
import SentinelWrap.Proofs.Text.Position
import SentinelWrap.Proofs.Walk.Listing
import SentinelWrap.Proofs.Wrapping.Binding
import SentinelWrap.Proofs.Wrapping.FixedTree
import SentinelWrap.Proofs.Wrapping.ImportBlock
import SentinelWrap.Proofs.Wrapping.KeptText
