import Codemod.Engine.Run
import Codemod.Tree.Lemmas
import Codemod.Proofs.Related
import Codemod.Proofs.Contest.Cluster
import Codemod.Proofs.Contest.Resolution
import Codemod.Proofs.Contest.Renaming
import Codemod.Proofs.Contest.Grouping
import Codemod.Proofs.Contest.Policy
import Codemod.Proofs.Guard.Leaves
import Codemod.Proofs.Match.Anchor
import Codemod.Proofs.Match.Inheritance
import Codemod.Proofs.Match.Weight
import Codemod.Proofs.Match.Resemblance
import Codemod.Proofs.Match.Renaming
import Codemod.Proofs.Tree.Place
import Codemod.Proofs.Tree.Size
import Codemod.Proofs.Tree.Resemblance
import Codemod.Proofs.Catalog.Loaded
import Codemod.Proofs.Pass.Claims
import Codemod.Proofs.Pass.Rewriting
import Codemod.Proofs.Pass.Settlement
import Codemod.Proofs.Pass.Steps
import Codemod.Proofs.Pass.Exclusion
import Codemod.Proofs.Engine.Passes
import Codemod.Proofs.Pass.Tiling
import Codemod.Proofs.Engine.Applications
import Codemod.Proofs.Engine.FixedPoint
import Codemod.Proofs.Catalog.Lookup
import Codemod.Proofs.Pass.Quiet
import Codemod.Proofs.Pass.Parts
import Codemod.Proofs.Pass.Contests
import Codemod.Proofs.Pass.Places
import Codemod.Proofs.Pass.Repeats
import Codemod.Proofs.Pass.Reports
import Codemod.Proofs.Pass.Competition
import Codemod.Proofs.Pass.Coverage
import Codemod.Proofs.Engine.Completeness
import Codemod.Proofs.Pass.Simulation
import Codemod.Proofs.Pass.Mirror
import Codemod.Proofs.Pass.Translation
import Codemod.Proofs.Pass.Relocation
import Codemod.Proofs.Pass.Resemblance
import Codemod.Proofs.Catalog.Candidates
import Codemod.Proofs.Catalog.RuleOrder
import Codemod.Proofs.Catalog.Tables
import Codemod.Proofs.Engine.Course
import Codemod.Proofs.Engine.Resumption
import Codemod.Proofs.Engine.Shrinking
import Codemod.Proofs.Engine.Exhaustive
import Codemod.Proofs.Engine.RuleOrder
import Codemod.Proofs.Engine.Container
import Codemod.Proofs.Engine.Declarations
import Codemod.Proofs.Engine.Locations
import Codemod.Proofs.Engine.Copies
import Codemod.Proofs.Engine.Failures
import Codemod.Proofs.Engine.Metadata
import Codemod.Proofs.Pass.Visits
import Codemod.Proofs.Engine.Untouched
import Codemod.Proofs.Except
import Codemod.Proofs.Text.Bytes
import Codemod.Proofs.Text.Positions
import Codemod.Proofs.Sexp.Lexemes
import Codemod.Proofs.Sexp.Words
import Codemod.Proofs.Sexp.Tokens
import Codemod.Proofs.Sexp.Form
import Codemod.Proofs.Sexp.Located
import Codemod.Proofs.Sexp.Grammar
import Codemod.Proofs.Sexp.Spelling
import Codemod.Proofs.Sexp.Spans
import Codemod.Proofs.Tree.Printed
import Codemod.Proofs.Tree.Spans
import Codemod.Proofs.Tree.Displayed
import Codemod.Proofs.Shape.Printed
import Codemod.Proofs.Shape.Occurrences
import Codemod.Proofs.Shape.Renaming
import Codemod.Proofs.Shape.Compilation
import Codemod.Proofs.Guard.Printed
import Codemod.Proofs.Rule.Printed
import Codemod.Proofs.Catalog.Reloaded
import Codemod.Proofs.Catalog.Admission
import Codemod.Proofs.Catalog.Requests
import Codemod.Proofs.Engine.Readable
import Codemod.Proofs.Engine.Diagnostics
import Codemod.Proofs.Assoc
import Codemod.Proofs.Match.Extension
import Codemod.Proofs.Match.Filling
import Codemod.Proofs.Match.Soundness
import Codemod.Proofs.Guard.Unreferenced
import Codemod.Proofs.Match.Tables
import Codemod.Proofs.Match.Goal
import Codemod.Proofs.Match.Completeness
import Codemod.Proofs.Statistics
import Codemod.Proofs.Pass.Accounts
import Codemod.Proofs.Engine.Accounts
import Codemod.Proofs.Guard.Conjunctions
import Codemod.Proofs.Statistics.Printed
import Codemod.Proofs.Pass.Timings
import Codemod.Proofs.Engine.Reporting
