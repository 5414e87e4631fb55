import Consonance.Chord
import Consonance.CommandLine
import Consonance.Config
import Consonance.Failure
import Consonance.Formula
import Consonance.Fraction
import Consonance.Interval.Basic
import Consonance.Interval.Table
import Consonance.Json.Printer
import Consonance.Json.Reader
import Consonance.Main
import Consonance.Midi.BlockChord
import Consonance.Midi.Event
import Consonance.Midi.File
import Consonance.Midi.Track
import Consonance.Note
import Consonance.Number.Binary64
import Consonance.Number.Decimal
import Consonance.Number.Integer
import Consonance.Number.Radix
import Consonance.Number.Shortest
import Consonance.Parameter
import Consonance.Pitch.Class
import Consonance.Pitch.Name
import Consonance.Pitch.Space
import Consonance.Query.Chord
import Consonance.Query.Interval
import Consonance.Query.Note
import Consonance.Query.Solution
import Consonance.Relation.Chord
import Consonance.Relation.Interval
import Consonance.Relation.Note
import Consonance.Server
import Consonance.Solver.Answers
import Consonance.Solver.Domain
import Consonance.Solver.Goal
import Consonance.Solver.Propagation
import Consonance.Solver.Search
import Consonance.Solver.State
import Consonance.Solver.Term
import Consonance.Store.Basic
import Consonance.Store.Path
import Consonance.Text.Base64
import Consonance.Text.Blank
import Consonance.Text.Case
import Consonance.Text.Digit
import Consonance.Text.Printable
import Consonance.Text.Quoted
import Consonance.Tool
import Consonance.Value.Arithmetic
import Consonance.Value.Atom
import Consonance.Value.Basic
import Consonance.Value.Coerce
import Consonance.Value.Members
import Consonance.Value.Order
import Consonance.Value.Quantity
import Consonance.Value.Text
import Consonance.Yaml.Block
import Consonance.Yaml.Cursor
import Consonance.Yaml.Document
import Consonance.Yaml.Form
import Consonance.Yaml.Layout
import Consonance.Yaml.Node
import Consonance.Yaml.Plain
import Consonance.Yaml.Quoted
import Consonance.Yaml.Reader
import Consonance.Yaml.Scalar
import Consonance.Yaml.Tag
import Consonance.Yaml.Time
import Consonance.Yaml.Token
import Consonance.Proofs.Confluence
import Consonance.Proofs.Quiescence
import Consonance.Proofs.Termination
import Consonance.Proofs.Timing
import Consonance.Proofs.Releases
import Consonance.Proofs.Backing
import Consonance.Proofs.Reordering
import Consonance.Proofs.Isolation
import Consonance.Proofs.Persistence
import Consonance.Proofs.Enumeration
import Consonance.Proofs.Trials
import Consonance.Proofs.Distances
import Consonance.Proofs.Introduction
import Consonance.Proofs.Network
import Consonance.Proofs.ClosedVoicings
import Consonance.Proofs.NoteTable
import Consonance.Proofs.Composition
import Consonance.Proofs.Playback
import Consonance.Proofs.Limits
import Consonance.Proofs.Splitting
import Consonance.Proofs.Unification
import Consonance.Proofs.Combinators
import Consonance.Proofs.Barren
import Consonance.Proofs.PitchArguments
import Consonance.Proofs.ChordAnswers
import Consonance.Proofs.Exports
import Consonance.Proofs.Conversion
import Consonance.Proofs.NoteNames
import Consonance.Proofs.PrintedPitches
import Consonance.Proofs.Truncation
import Consonance.Proofs.NoteAnswers
import Consonance.Proofs.PitchedAnswers
import Consonance.Proofs.ToolAnswers
import Consonance.Proofs.Requests
import Consonance.Proofs.Configurations
import Consonance.Proofs.DisplayNames
