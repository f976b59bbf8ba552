import PathGlob.Disk.Search
import PathGlob.Pattern.Cache
import PathGlob.Template.Enumeration
import PathGlob.Tree
import PathGlob.Proofs.Glob.Proper
import PathGlob.Proofs.Path.Names
import PathGlob.Proofs.Pattern.Built
import PathGlob.Proofs.Regex.Language
import PathGlob.Proofs.Glob.Segment
import PathGlob.Proofs.Glob.Acceptance
import PathGlob.Proofs.Pattern.Matching
import PathGlob.Proofs.Stream.Drain
import PathGlob.Proofs.Walk.Refinement
import PathGlob.Proofs.Walk.Coverage
import PathGlob.Proofs.Walk.Extent
import PathGlob.Proofs.Tree.Shape
import PathGlob.Proofs.Walk.Findings
import PathGlob.Proofs.Tree.Reach
import PathGlob.Proofs.Tree.Walks
import PathGlob.Proofs.Tree.Agreement
import PathGlob.Proofs.Glob.Spelling
import PathGlob.Proofs.Glob.Canonical
import PathGlob.Proofs.Pattern.Identity
import PathGlob.Proofs.Pattern.Refusal
import PathGlob.Proofs.Pattern.Caching
import PathGlob.Proofs.Glob.Plain
import PathGlob.Proofs.Template.Enumeration
import PathGlob.Proofs.Pattern.Prefix
import PathGlob.Proofs.Walk.Relocation
import PathGlob.Proofs.Tree.Relocation
import PathGlob.Proofs.Pattern.Combination
import PathGlob.Proofs.Walk.Succession
import PathGlob.Proofs.Tree.Union
import PathGlob.Proofs.Pattern.Absorption
import PathGlob.Proofs.Regex.Reader
import PathGlob.Proofs.Pattern.Printed
import PathGlob.Proofs.CaseFold.Recasing
import PathGlob.Proofs.Glob.Pieces
import PathGlob.Proofs.Regex.Recasing
import PathGlob.Proofs.Glob.Recasing
import PathGlob.Proofs.Pattern.Recasing
import PathGlob.Proofs.Walk.Reordering
import PathGlob.Proofs.Tree.Reordering
import PathGlob.Proofs.Path.Below
import PathGlob.Proofs.Walk.Confinement
import PathGlob.Proofs.Tree.Isolation
import PathGlob.Proofs.Stream.Calls
import PathGlob.Proofs.Walk.Termination
import PathGlob.Proofs.Tree.History
import PathGlob.Proofs.Tree.Catalog
import PathGlob.Proofs.Tree.Kinds
import PathGlob.Proofs.Path.Resolved
import PathGlob.Proofs.Tree.WorkingDirectory
import PathGlob.Proofs.Glob.Grammar
import PathGlob.Proofs.Glob.Viability
import PathGlob.Proofs.Regex.Backtracking
import PathGlob.Proofs.Glob.Division
import PathGlob.Proofs.Glob.Preference
import PathGlob.Proofs.Glob.Following
import PathGlob.Proofs.Template.Captures
import PathGlob.Proofs.Path.Joining
import PathGlob.Proofs.Glob.Seams
import PathGlob.Proofs.Pattern.Nesting
import PathGlob.Proofs.Pattern.Narrowing
import PathGlob.Proofs.Tree.Pruning
import PathGlob.Proofs.Path.Writing
import PathGlob.Proofs.Glob.Nameless
import PathGlob.Proofs.Pattern.Normalization
import PathGlob.Proofs.Template.Naming
import PathGlob.Proofs.Template.Construction
