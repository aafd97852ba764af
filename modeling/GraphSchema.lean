import GraphSchema.Decimal.Shortest
import GraphSchema.Json.Parser
import GraphSchema.Json.Printer
import GraphSchema.Text.Blank
import GraphSchema.Schema.Json
import GraphSchema.Sdl.Lexer
import GraphSchema.Sdl.Value
import GraphSchema.Sdl.Grammar
import GraphSchema.Sdl.Printer
import GraphSchema.Sdl.Source
import GraphSchema.Schema.Rederive
import GraphSchema.Requirement.Analysis
import GraphSchema.Fingerprint
import GraphSchema.Toml.Literals
import GraphSchema.Toml.Strings
import GraphSchema.Toml.Parser
import GraphSchema.Config.Printer
import GraphSchema.Config.Reader
import GraphSchema.Files.Program
import GraphSchema.Cache.Lookup
import GraphSchema.Cache.Store
import GraphSchema.Build
import GraphSchema.Project
import GraphSchema.Proofs.Merge.Bucket
import GraphSchema.Proofs.Merge.Compatible
import GraphSchema.Proofs.Merge.Documents
import GraphSchema.Proofs.Merge.Union
import GraphSchema.Proofs.Merge.Order
import GraphSchema.Proofs.Sdl.Words
import GraphSchema.Proofs.Sdl.Spelling
import GraphSchema.Proofs.Sdl.Reading
import GraphSchema.Proofs.Sdl.Values
import GraphSchema.Proofs.Sdl.Entries
import GraphSchema.Proofs.Sdl.RoundTrip
import GraphSchema.Proofs.Json.RoundTrip
import GraphSchema.Proofs.Json.Truncated
import GraphSchema.Proofs.Json.Members
import GraphSchema.Proofs.Schema.Json
import GraphSchema.Proofs.Cache.Snapshot
import GraphSchema.Proofs.Cache.Disk
import GraphSchema.Proofs.Cache.Artifacts
import GraphSchema.Proofs.Cache.Sharing
import GraphSchema.Proofs.Cache.Transparency
import GraphSchema.Proofs.Merge.Stages
import GraphSchema.Proofs.Decimal.Nearest
import GraphSchema.Proofs.Decimal.Shortest
import GraphSchema.Proofs.Sdl.Floats
import GraphSchema.Proofs.Sdl.Lexing
import GraphSchema.Proofs.Sdl.Yields
import GraphSchema.Proofs.Sdl.Grammar
import GraphSchema.Proofs.Sdl.Brackets
import GraphSchema.Proofs.Schema.Rederive
import GraphSchema.Proofs.Fingerprint
import GraphSchema.Proofs.Schema.Depth
import GraphSchema.Proofs.Files.Dots
import GraphSchema.Proofs.Cache.Retention
import GraphSchema.Proofs.Requirement.Resolution
import GraphSchema.Proofs.Schema.Storage
import GraphSchema.Proofs.Merge.Conflict
import GraphSchema.Proofs.Collection.Places
import GraphSchema.Proofs.Cache.Canonical
import GraphSchema.Proofs.Schema.Index
import GraphSchema.Proofs.Requirement.Keys
import GraphSchema.Proofs.Sdl.Telling
import GraphSchema.Proofs.Sdl.Passing
import GraphSchema.Proofs.Merge.Apart
import GraphSchema.Proofs.Requirement.Selection
import GraphSchema.Proofs.Merge.Agreement
import GraphSchema.Proofs.Cache.Failure
import GraphSchema.Proofs.Requirement.Notation
import GraphSchema.Proofs.Text.Bytes
import GraphSchema.Proofs.Fingerprint.Recording
import GraphSchema.Proofs.Fingerprint.Digest
import GraphSchema.Proofs.Files.Following
import GraphSchema.Proofs.Collection.Extension
import GraphSchema.Proofs.Collection.Roots
import GraphSchema.Proofs.Requirement.Unambiguous
import GraphSchema.Proofs.Merge.Positions
import GraphSchema.Proofs.Sdl.Quotation
import GraphSchema.Proofs.Toml.Strings
import GraphSchema.Proofs.Toml.Values
import GraphSchema.Proofs.Toml.Documents
import GraphSchema.Proofs.Files.Writing
import GraphSchema.Proofs.Config.Saving
