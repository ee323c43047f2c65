import SuiteMake.FileTree.Build
import SuiteMake.Main
import SuiteMake.Proofs.CaseName.Splitting
import SuiteMake.Proofs.CommandLine.Line
import SuiteMake.Proofs.CommandLine.RoundTrip
import SuiteMake.Proofs.Draft.Failing
import SuiteMake.Proofs.Draft.FixedPoint
import SuiteMake.Proofs.Draft.Outdated
import SuiteMake.Proofs.Draft.Portable
import SuiteMake.Proofs.Draft.Respelled
import SuiteMake.Proofs.EntryPoint.Distinct
import SuiteMake.Proofs.EntryPoint.LineEnding
import SuiteMake.Proofs.EntryPoint.Rendering
import SuiteMake.Proofs.FileTree.Respelling
import SuiteMake.Proofs.Listing
import SuiteMake.Proofs.Recipe.Coverage
import SuiteMake.Proofs.Recipe.RoundTrip
import SuiteMake.Proofs.Recipe.Structure
import SuiteMake.Proofs.Region.Commute
import SuiteMake.Proofs.Region.LineEnding
import SuiteMake.Proofs.Region.Splice
import SuiteMake.Proofs.SourceFile.Resolution
