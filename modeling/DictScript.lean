import DictScript.Main
import DictScript.Action.Eval
import DictScript.Proofs.Numbers
import DictScript.Proofs.Equality.Bisimilarity
import DictScript.Proofs.Equality.Laws
import DictScript.Proofs.Frozen.Stream
import DictScript.Proofs.Frozen.Freeze
import DictScript.Proofs.Frozen.Growth
import DictScript.Proofs.Frozen.Thaw
import DictScript.Proofs.Frozen.RoundTrip
import DictScript.Proofs.Ownership.Counting
import DictScript.Proofs.Parents.Lookup
import DictScript.Proofs.Ownership.Enlarged
import DictScript.Proofs.Parents.Invariant
import DictScript.Proofs.Parents.Reading
import DictScript.Proofs.Parents.Lawful
import DictScript.Proofs.Parents.Rules
import DictScript.Proofs.Parents.Thawing
import DictScript.Proofs.Parents.Primitives
import DictScript.Proofs.Parents.Cycles
import DictScript.Proofs.Parents.Reachable
import DictScript.Proofs.Calls.Binding
import DictScript.Proofs.Calls.Scope
import DictScript.Proofs.Frozen.Accepts
import DictScript.Proofs.Frozen.Rejects
import DictScript.Proofs.Frozen.Numbers
import DictScript.Proofs.Frozen.PlainData
import DictScript.Proofs.Calls.Retention
import DictScript.Proofs.Frozen.Closures
import DictScript.Proofs.Steps.Depth
import DictScript.Proofs.Steps.Limit
import DictScript.Proofs.Frozen.Additions
import DictScript.Proofs.Steps.Objects
import DictScript.Proofs.Frozen.Canonical
import DictScript.Proofs.Actions.Balance
import DictScript.Proofs.Actions.Dispatch
import DictScript.Proofs.Actions.Shadowing
import DictScript.Proofs.Frozen.HostObjects
import DictScript.Proofs.Regions.Edits
import DictScript.Proofs.Regions.Contained
import DictScript.Proofs.Regions.Tame
import DictScript.Proofs.Regions.Rules
import DictScript.Proofs.Regions.Thawing
import DictScript.Proofs.Regions.Primitives
import DictScript.Proofs.Regions.Run
import DictScript.Proofs.Regions.History
import DictScript.Proofs.Ownership.Links
import DictScript.Proofs.Dictionaries.Representation
import DictScript.Proofs.Dictionaries.Updates
import DictScript.Proofs.Calls.Evaluation
import DictScript.Proofs.Calls.Parameters
import DictScript.Proofs.Calls.Arguments
import DictScript.Proofs.Calls.Covered
import DictScript.Proofs.Calls.Writing
import DictScript.Proofs.Calls.Within
import DictScript.Proofs.Calls.Methods
import DictScript.Proofs.Renaming.Values
import DictScript.Proofs.Renaming.Heaps
import DictScript.Proofs.Renaming.Walks
import DictScript.Proofs.Renaming.Writing
import DictScript.Proofs.Renaming.Operations
import DictScript.Proofs.Renaming.Printing
import DictScript.Proofs.Renaming.Copies
import DictScript.Proofs.Renaming.Rules
import DictScript.Proofs.Renaming.Freezing
import DictScript.Proofs.Renaming.Thawing
import DictScript.Proofs.Renaming.Primitives
import DictScript.Proofs.Renaming.Run
import DictScript.Proofs.Renaming.Beside
import DictScript.Proofs.Calls.Protocols
import DictScript.Proofs.Calls.Agreement
import DictScript.Proofs.Ownership.Rewritten
import DictScript.Proofs.Calls.Failures
import DictScript.Proofs.Dictionaries.Literals
import DictScript.Proofs.Frozen.Failures
import DictScript.Proofs.Frozen.HostFunctions
import DictScript.Proofs.Printing.Unfolding
import DictScript.Proofs.Ownership.Joined
import DictScript.Proofs.Calls.Errors
import DictScript.Proofs.Calls.Sharing
import DictScript.Proofs.Frozen.Attachment
import DictScript.Proofs.Frozen.Existing
import DictScript.Proofs.Suggestions.Distance
import DictScript.Proofs.Dictionaries.Visible
import DictScript.Proofs.Suggestions.Nearest
import DictScript.Proofs.Printing.Dump
