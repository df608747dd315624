import ImpSSA.Word
import ImpSSA.Table
import ImpSSA.Text.Printable
import ImpSSA.Text.Quoted
import ImpSSA.Node.Basic
import ImpSSA.Node.WellSorted
import ImpSSA.Node.Describe
import ImpSSA.Node.Render
import ImpSSA.Node.Eval
import ImpSSA.Surface.Token
import ImpSSA.Surface.Tree
import ImpSSA.Surface.Parse
import ImpSSA.IR.Basic
import ImpSSA.IR.Describe
import ImpSSA.IR.Print
import ImpSSA.IR.Assemble
import ImpSSA.IR.Verify
import ImpSSA.CodeGen.Basic
import ImpSSA.CodeGen.Lower
import ImpSSA.CodeGen.Compile
import ImpSSA.Machine.State
import ImpSSA.Machine.Operand
import ImpSSA.Machine.Step
import ImpSSA.Machine.Run
import ImpSSA.Agreement
import ImpSSA.Random.Source
import ImpSSA.Random.Twister
import ImpSSA.Search.Generate
import ImpSSA.Search.Halve
import ImpSSA.Search.Shrink
import ImpSSA.Search.Check
import ImpSSA.Assembly.Module
import ImpSSA.Assembly.Scope
import ImpSSA.Assembly.Text
import ImpSSA.Assembly.Export
import ImpSSA.Proofs.Control
import ImpSSA.Proofs.Lists
import ImpSSA.Proofs.Table
import ImpSSA.Proofs.Node.Parts
import ImpSSA.Proofs.Node.Run
import ImpSSA.Proofs.Node.BigStep
import ImpSSA.Proofs.Surface.Grammar
import ImpSSA.Proofs.Surface.Writing
import ImpSSA.Proofs.Surface.RoundTrip
import ImpSSA.Proofs.Surface.Spacing
import ImpSSA.Proofs.Surface.Derivation
import ImpSSA.Proofs.Surface.Acceptance
import ImpSSA.Proofs.Surface.Reprinting
import ImpSSA.Proofs.IR.WellFormed
import ImpSSA.Proofs.IR.Lookup
import ImpSSA.Proofs.IR.Stream
import ImpSSA.Proofs.IR.Stretches
import ImpSSA.Proofs.IR.Flow
import ImpSSA.Proofs.Machine.Rules
import ImpSSA.Proofs.Machine.Steps
import ImpSSA.Proofs.Machine.Provenance
import ImpSSA.Proofs.Machine.Faults
import ImpSSA.Proofs.Machine.Safety
import ImpSSA.Proofs.Machine.Closure
import ImpSSA.Proofs.Machine.History
import ImpSSA.Proofs.Machine.Ownership
import ImpSSA.Proofs.Machine.Bracketing
import ImpSSA.Proofs.Machine.Place
import ImpSSA.Proofs.CodeGen.Emission
import ImpSSA.Proofs.CodeGen.Numbering
import ImpSSA.Proofs.CodeGen.Compiled
import ImpSSA.Proofs.CodeGen.Verified
import ImpSSA.Proofs.CodeGen.Refusal
import ImpSSA.Proofs.CodeGen.Scoping
import ImpSSA.Proofs.CodeGen.Shape
import ImpSSA.Proofs.Simulation.Expression
import ImpSSA.Proofs.Simulation.Layout
import ImpSSA.Proofs.Simulation.Operand
import ImpSSA.Proofs.Simulation.Command
import ImpSSA.Proofs.Simulation.Correctness
import ImpSSA.Proofs.Agreement
import ImpSSA.Proofs.Simulation.Cost
import ImpSSA.Proofs.Simulation.Printing
import ImpSSA.Proofs.Machine.Lockstep
import ImpSSA.Proofs.Node.Dependence
import ImpSSA.Proofs.Machine.Fuel
import ImpSSA.Proofs.IR.Violations
import ImpSSA.Proofs.Node.Seeding
import ImpSSA.Proofs.Search.Halving
import ImpSSA.Proofs.Search.Reduction
import ImpSSA.Proofs.Search.Shrinking
import ImpSSA.Proofs.Search.Minimizing
import ImpSSA.Proofs.Search.Checking
import ImpSSA.Proofs.CodeGen.Text
import ImpSSA.Proofs.Assembly.Mirror
import ImpSSA.Proofs.CodeGen.Export
import ImpSSA.Proofs.Word
import ImpSSA.Proofs.Machine.Arithmetic
import ImpSSA.Proofs.Node.Wrapping
