import NilGuard.CommandLine
import NilGuard.Main
import NilGuard.Proofs.Arguments
import NilGuard.Proofs.Comments
import NilGuard.Proofs.Confluence
import NilGuard.Proofs.FixLists
import NilGuard.Proofs.Listings
import NilGuard.Proofs.Marks
import NilGuard.Proofs.Nesting
import NilGuard.Proofs.Records
import NilGuard.Proofs.Relabeling
import NilGuard.Proofs.Rendering
import NilGuard.Proofs.SourceOrder
import NilGuard.Proofs.Suppressed
import NilGuard.Proofs.Writes
