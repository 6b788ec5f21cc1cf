import GridWalk.Grid.Radii
import GridWalk.Grid.Point
import GridWalk.Grid.Sector
import GridWalk.Text.Utf8
import GridWalk.Text.Repair
import GridWalk.Cell
import GridWalk.Stack
import GridWalk.Instruction
import GridWalk.Program
import GridWalk.Stream.Fault
import GridWalk.Stream.Input
import GridWalk.Stream.Output
import GridWalk.Route.Basic
import GridWalk.Route.Lexeme
import GridWalk.Route.Walk
import GridWalk.Route.Diagnostic
import GridWalk.Route.Compile
import GridWalk.Machine.Failure
import GridWalk.Machine.Trace
import GridWalk.Machine.Basic
import GridWalk.Machine.Run
import GridWalk.CommandLine.Request
import GridWalk.CommandLine.Session
import GridWalk.Main
import GridWalk.Proofs.Site
import GridWalk.Proofs.Itinerary
import GridWalk.Proofs.Scan
import GridWalk.Proofs.Compilation
import GridWalk.Proofs.CompileErrors
import GridWalk.Proofs.Conservation
import GridWalk.Proofs.Resumption
import GridWalk.Proofs.Agreement
import GridWalk.Proofs.Layout
import GridWalk.Proofs.Advance
import GridWalk.Proofs.Copying
import GridWalk.Proofs.Legs
import GridWalk.Proofs.Realization
import GridWalk.Proofs.Halting
import GridWalk.Proofs.OutputIndependence
import GridWalk.Proofs.Debugging
import GridWalk.Proofs.Iteration
import GridWalk.Proofs.Delivery
import GridWalk.Proofs.Chunking
import GridWalk.Proofs.EntryPoints
import GridWalk.Proofs.Redrawing
import GridWalk.Proofs.Commentary
import GridWalk.Proofs.Frame
import GridWalk.Proofs.Continuation
import GridWalk.Proofs.Symmetry
import GridWalk.Proofs.Forward
import GridWalk.Proofs.Failing
import GridWalk.Proofs.Account
import GridWalk.Proofs.Consumption
import GridWalk.Proofs.Octants
import GridWalk.Proofs.Exactness
import GridWalk.Proofs.Capacity
import GridWalk.Proofs.Grammar
import GridWalk.Proofs.Listing
import GridWalk.Proofs.InPlace
