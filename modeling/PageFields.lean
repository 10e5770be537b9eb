import PageFields.Main
import PageFields.Outline.Nested
import PageFields.Proofs.Descriptor.Resave
import PageFields.Proofs.Edit.RoundTrip
import PageFields.Proofs.Outline.OnePass
import PageFields.Proofs.Workspace.LostUpdate
import PageFields.Proofs.Outline.Partition
import PageFields.Proofs.Outline.Concat
import PageFields.Proofs.Workspace.Atomic
import PageFields.Proofs.Outline.Normal
import PageFields.Proofs.Edit.Whole
import PageFields.Proofs.Edit.Wrapped
import PageFields.Proofs.Descriptor.Inherit
import PageFields.Proofs.FileTree.Agree
import PageFields.Proofs.Storage.Project
import PageFields.Proofs.Workspace.Isolation
import PageFields.Proofs.Workspace.Address
import PageFields.Proofs.Workspace.Again
import PageFields.Proofs.Token.Stream
import PageFields.Proofs.Outline.Inner
import PageFields.Proofs.Descriptor.Mode
import PageFields.Proofs.Token.Search
import PageFields.Proofs.Workspace.Catalog
import PageFields.Proofs.Cli.Options
import PageFields.Proofs.Cli.Command
import PageFields.Proofs.Cli.DryRun
import PageFields.Proofs.Edit.LastWrite
import PageFields.Proofs.Workspace.NewProject
import PageFields.Proofs.Workspace.Spelling
import PageFields.Proofs.Workspace.Growth
import PageFields.Proofs.Edit.Names
import PageFields.Proofs.Text.Canonical
import PageFields.Proofs.Token.SingleQuoted
import PageFields.Proofs.Cli.SetUp
