import OrderedAtomics.Atomic.Flag
import OrderedAtomics.Atomic.Integer
import OrderedAtomics.Atomic.Pointer
import OrderedAtomics.Atomic.Selected
import OrderedAtomics.Benchmark.Session
import OrderedAtomics.Benchmark.Snapshot
import OrderedAtomics.Cell.Backend
import OrderedAtomics.Cell.Derivation
import OrderedAtomics.Floating.Reader
import OrderedAtomics.Json.Constant
import OrderedAtomics.Main
import OrderedAtomics.Padded
import OrderedAtomics.Proofs.Linearization
import OrderedAtomics.Proofs.Path
import OrderedAtomics.Record
import OrderedAtomics.Workload
import OrderedAtomics.Proofs.Observation
import OrderedAtomics.Proofs.Discipline
import OrderedAtomics.Proofs.Pool.Stock
import OrderedAtomics.Proofs.Pool.Ownership
import OrderedAtomics.Proofs.Stack.Chain
import OrderedAtomics.Proofs.Stack.Lifo
import OrderedAtomics.Proofs.Queue.Chain
import OrderedAtomics.Proofs.Queue.Terms
import OrderedAtomics.Proofs.Queue.Fifo
import OrderedAtomics.Proofs.Queue.Emptiness
import OrderedAtomics.Proofs.Interleaving
import OrderedAtomics.Proofs.Alone
import OrderedAtomics.Proofs.Ring.Window
import OrderedAtomics.Proofs.Ring.Handoff
import OrderedAtomics.Proofs.Cell.Backends
import OrderedAtomics.Proofs.Cell.Interference
import OrderedAtomics.Proofs.Cell.Atomicity
import OrderedAtomics.Proofs.Cell.Neighbours
import OrderedAtomics.Proofs.Queue.Bounded
import OrderedAtomics.Proofs.Stack.Bounded
import OrderedAtomics.Proofs.Ring.Bounded
import OrderedAtomics.Proofs.Atomic.Carrier
import OrderedAtomics.Proofs.Atomic.Operations
import OrderedAtomics.Proofs.Atomic.Values
import OrderedAtomics.Proofs.Atomic.Representation
import OrderedAtomics.Proofs.Cell.Orders
import OrderedAtomics.Proofs.Conservation
import OrderedAtomics.Proofs.Inventory
import OrderedAtomics.Proofs.Capacity
import OrderedAtomics.Proofs.Queue.Lag
import OrderedAtomics.Proofs.Drop
import OrderedAtomics.Proofs.Cell.Contention
import OrderedAtomics.Proofs.Cell.Fenced
import OrderedAtomics.Proofs.Cell.Machines
import OrderedAtomics.Proofs.Cell.Stacks
import OrderedAtomics.Proofs.Atomic.FetchUpdate
import OrderedAtomics.Proofs.Cell.Barriers
import OrderedAtomics.Proofs.Refusal
import OrderedAtomics.Proofs.Atomic.Generations
import OrderedAtomics.Proofs.Atomic.Legality
import OrderedAtomics.Proofs.Atomic.Comparison
import OrderedAtomics.Proofs.Cell.Exclusion
import OrderedAtomics.Proofs.Atomic.Completion
import OrderedAtomics.Proofs.Pool.Lifo
import OrderedAtomics.Proofs.Growth
import OrderedAtomics.Proofs.Atomic.Gate
import OrderedAtomics.Proofs.Cell.Folding
import OrderedAtomics.Proofs.Benchmark.Relisting
import OrderedAtomics.Proofs.Floating.Rounding
import OrderedAtomics.Proofs.Floating.Shortest
import OrderedAtomics.Proofs.Json.Number
import OrderedAtomics.Proofs.Json.Text
import OrderedAtomics.Proofs.Benchmark.Printed
import OrderedAtomics.Proofs.Benchmark.Run
import OrderedAtomics.Proofs.Benchmark.Summary
