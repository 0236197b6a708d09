import JsonExtract.Bytes.Ascii
import JsonExtract.Bytes.Basic
import JsonExtract.Bytes.Chunks
import JsonExtract.Bytes.Quoted
import JsonExtract.Bytes.Utf8
import JsonExtract.Cursor.Basic
import JsonExtract.Cursor.Buffer
import JsonExtract.Cursor.Reader
import JsonExtract.Cursor.Script
import JsonExtract.Cursor.Stepwise
import JsonExtract.Failure
import JsonExtract.Kind
import JsonExtract.Location
import JsonExtract.Options
import JsonExtract.Path.Basic
import JsonExtract.Path.Error
import JsonExtract.Path.Filter
import JsonExtract.Path.Level
import JsonExtract.Path.Parser
import JsonExtract.Path.Selector
import JsonExtract.Proofs.Delivery.Breakage
import JsonExtract.Proofs.Delivery.Causality
import JsonExtract.Proofs.Delivery.Chronicle
import JsonExtract.Proofs.Delivery.Exchange
import JsonExtract.Proofs.Delivery.Faithful
import JsonExtract.Proofs.Delivery.Independence
import JsonExtract.Proofs.Delivery.Laziness
import JsonExtract.Proofs.Delivery.Locations
import JsonExtract.Proofs.Delivery.Metering
import JsonExtract.Proofs.Delivery.Pieces
import JsonExtract.Proofs.Delivery.Refusal
import JsonExtract.Proofs.Delivery.Severance
import JsonExtract.Proofs.Delivery.Termination
import JsonExtract.Proofs.Delivery.Transcript
import JsonExtract.Proofs.Document.Compact
import JsonExtract.Proofs.Document.Draft
import JsonExtract.Proofs.Document.Grammar
import JsonExtract.Proofs.Document.Reordering
import JsonExtract.Proofs.Document.Tree
import JsonExtract.Proofs.Extraction.Addresses
import JsonExtract.Proofs.Extraction.Answer
import JsonExtract.Proofs.Extraction.Availability
import JsonExtract.Proofs.Extraction.Children
import JsonExtract.Proofs.Extraction.Compaction
import JsonExtract.Proofs.Extraction.ContainerOutcomes
import JsonExtract.Proofs.Extraction.Descent
import JsonExtract.Proofs.Extraction.FilterOutcomes
import JsonExtract.Proofs.Extraction.Findings
import JsonExtract.Proofs.Extraction.Halt
import JsonExtract.Proofs.Extraction.Landings
import JsonExtract.Proofs.Extraction.Levels
import JsonExtract.Proofs.Extraction.Passage
import JsonExtract.Proofs.Extraction.Prizes
import JsonExtract.Proofs.Extraction.Progress
import JsonExtract.Proofs.Extraction.Reference
import JsonExtract.Proofs.Extraction.Reordering
import JsonExtract.Proofs.Extraction.Sequence
import JsonExtract.Proofs.Extraction.Settings
import JsonExtract.Proofs.Extraction.Settlement
import JsonExtract.Proofs.Extraction.Several
import JsonExtract.Proofs.Extraction.SingleMarks
import JsonExtract.Proofs.Extraction.SlotProspects
import JsonExtract.Proofs.Extraction.Stakes
import JsonExtract.Proofs.Extraction.StandingChildren
import JsonExtract.Proofs.Extraction.StandingDocuments
import JsonExtract.Proofs.Extraction.StandingSlots
import JsonExtract.Proofs.Extraction.Survival
import JsonExtract.Proofs.Extraction.Trimming
import JsonExtract.Proofs.Paths.Boundaries
import JsonExtract.Proofs.Paths.Bytewise
import JsonExtract.Proofs.Paths.Completeness
import JsonExtract.Proofs.Paths.Concatenation
import JsonExtract.Proofs.Paths.Encoding
import JsonExtract.Proofs.Paths.Faults
import JsonExtract.Proofs.Paths.Finality
import JsonExtract.Proofs.Paths.Grammar
import JsonExtract.Proofs.Paths.Levels
import JsonExtract.Proofs.Paths.Places
import JsonExtract.Proofs.Paths.SingleMarks
import JsonExtract.Proofs.Paths.Soundness
import JsonExtract.Proofs.Paths.Wording
import JsonExtract.Proofs.Scan.Acceptance
import JsonExtract.Proofs.Scan.Completeness
import JsonExtract.Proofs.Scan.Completion
import JsonExtract.Proofs.Scan.Cut
import JsonExtract.Proofs.Scan.Drafting
import JsonExtract.Proofs.Scan.Excerpt
import JsonExtract.Proofs.Scan.Feed
import JsonExtract.Proofs.Scan.Follow
import JsonExtract.Proofs.Scan.Hopeless
import JsonExtract.Proofs.Scan.Lexeme
import JsonExtract.Proofs.Scan.Number
import JsonExtract.Proofs.Scan.Partway
import JsonExtract.Proofs.Scan.Pulling
import JsonExtract.Proofs.Scan.Runs
import JsonExtract.Proofs.Scan.Settings
import JsonExtract.Proofs.Scan.Shift
import JsonExtract.Proofs.Scan.Soundness
import JsonExtract.Proofs.Scan.Step
import JsonExtract.Proofs.Walk.Ancestry
import JsonExtract.Proofs.Walk.Balance
import JsonExtract.Proofs.Walk.Course
import JsonExtract.Proofs.Walk.Ledger
import JsonExtract.Proofs.Walk.Notices
import JsonExtract.Proofs.Walk.Numbers
import JsonExtract.Proofs.Walk.Outline
import JsonExtract.Proofs.Walk.Pruning
import JsonExtract.Proofs.Walk.Release
import JsonExtract.Proofs.Walk.Ruling
import JsonExtract.Proofs.Walk.Tape
import JsonExtract.Proofs.Walk.Unplaced
import JsonExtract.Proofs.Walk.Upkeep
import JsonExtract.Proofs.Walk.Waiting
import JsonExtract.Route
import JsonExtract.Session.Basic
import JsonExtract.Session.Frame
import JsonExtract.Session.Journal
import JsonExtract.Session.Slot
import JsonExtract.Session.Walk
import JsonExtract.Text.Escape
import JsonExtract.Text.Hidden
import JsonExtract.Token.Basic
import JsonExtract.Token.Lexer
import JsonExtract.Token.Nesting
import JsonExtract.Token.Number
import JsonExtract.Token.Pull
import JsonExtract.Token.Quotation
import JsonExtract.Token.Space
