import Interlock.Word
import Interlock.Fault
import Interlock.Location
import Interlock.Arena
import Interlock.Digest
import Interlock.Digraph.Sort
import Interlock.Json.Decode
import Interlock.Toml.Reader
import Interlock.Config.Load
import Interlock.Expr.Checked
import Interlock.Expr.Codec
import Interlock.Expr.Text
import Interlock.Netlist.Check
import Interlock.Netlist.Codec
import Interlock.Netlist.Fingerprint
import Interlock.Simulation.Bench
import Interlock.Diagnostic.Render
import Interlock.Diagnostic.Sink
import Interlock.Design.Basic
import Interlock.Names
import Interlock.ControlPath
import Interlock.Layout
import Interlock.Combiner
import Interlock.Recording
import Interlock.Script.Run
import Interlock.Reach
import Interlock.Fusion
import Interlock.Schedule.Basic
import Interlock.Arbiter
import Interlock.CallLogic
import Interlock.Drivers
import Interlock.Report
import Interlock.Elaboration
import Interlock.Proofs.Recording
import Interlock.Proofs.Draft.Exclusive
import Interlock.Proofs.Draft.Sites
import Interlock.Proofs.Draft.Script
import Interlock.Proofs.Recording.InPlace
import Interlock.Proofs.Scopes
import Interlock.Proofs.BackwardCalls
import Interlock.Proofs.ConflictFree
import Interlock.Proofs.Readiness
import Interlock.Proofs.SingleCall
import Interlock.Proofs.CallChains
import Interlock.Proofs.ArgumentDelivery
import Interlock.Proofs.Greedy
import Interlock.Proofs.RoundRobin
import Interlock.Proofs.Runnable
import Interlock.Proofs.Validation
import Interlock.Proofs.FusedUnits
import Interlock.Proofs.Simultaneity
import Interlock.Proofs.Alternatives
import Interlock.Proofs.Failure
import Interlock.Proofs.Draft.Regular
import Interlock.Proofs.WellFormed
import Interlock.Proofs.Acyclic
import Interlock.Proofs.Nameless
import Interlock.Proofs.Fingerprint
import Interlock.Proofs.Synchronous
import Interlock.Proofs.Waveform
import Interlock.Proofs.GuardedDrivers
import Interlock.Proofs.CallMap
import Interlock.Proofs.SharedWays
import Interlock.Proofs.MaximalGroups
import Interlock.Proofs.PriorityOrder
import Interlock.Proofs.ConflictGraph
import Interlock.Proofs.FusedReach
import Interlock.Proofs.GroupOrderings
import Interlock.Proofs.Levelization
import Interlock.Proofs.WidthCheck
import Interlock.Proofs.Folding
import Interlock.Proofs.Substitution
import Interlock.Proofs.Layout
import Interlock.Proofs.Switch
import Interlock.Proofs.StateMachine
import Interlock.Proofs.ValueRange
import Interlock.Proofs.RecorderErasure
import Interlock.Proofs.Dump
import Interlock.Proofs.SignalNames
import Interlock.Proofs.Netlist.Codec
import Interlock.Proofs.StockCombiners
