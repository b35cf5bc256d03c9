import RuleMonitor.Main
import RuleMonitor.Semantics.Batch
import RuleMonitor.Semantics.Explanation
import RuleMonitor.Semantics.Instance
import RuleMonitor.Proofs.Arenas.Calls
import RuleMonitor.Proofs.Arenas.Fragments
import RuleMonitor.Proofs.Arenas.Freshness
import RuleMonitor.Proofs.Drafts
import RuleMonitor.Proofs.Effects
import RuleMonitor.Proofs.Evaluation.Exchanging
import RuleMonitor.Proofs.Evaluation.Explanation
import RuleMonitor.Proofs.Evaluation.FanningOut
import RuleMonitor.Proofs.Evaluation.Fragments
import RuleMonitor.Proofs.Evaluation.Planning
import RuleMonitor.Proofs.Evaluation.Probing
import RuleMonitor.Proofs.Evaluation.Renaming
import RuleMonitor.Proofs.Evaluation.Reworking
import RuleMonitor.Proofs.Facts.Cancelling
import RuleMonitor.Proofs.Facts.Histories
import RuleMonitor.Proofs.Facts.Recording
import RuleMonitor.Proofs.Facts.Refusals
import RuleMonitor.Proofs.Facts.Rosters
import RuleMonitor.Proofs.Kinds
import RuleMonitor.Proofs.Monotone
import RuleMonitor.Proofs.Routines
import RuleMonitor.Proofs.Rules.Caching
import RuleMonitor.Proofs.Rules.Cancelling
import RuleMonitor.Proofs.Rules.Checking
import RuleMonitor.Proofs.Rules.Covering
import RuleMonitor.Proofs.Rules.Explaining
import RuleMonitor.Proofs.Rules.Lasting
import RuleMonitor.Proofs.Rules.Matching
import RuleMonitor.Proofs.Rules.Owning
import RuleMonitor.Proofs.Rules.Reaching
import RuleMonitor.Proofs.Rules.Rebuilding
import RuleMonitor.Proofs.Rules.Recovering
import RuleMonitor.Proofs.Rules.Refusing
import RuleMonitor.Proofs.Rules.Requests
import RuleMonitor.Proofs.Rules.Resynchronizing
import RuleMonitor.Proofs.Rules.Strategies
import RuleMonitor.Proofs.Rules.Twins
import RuleMonitor.Proofs.Schedule.Accounting
import RuleMonitor.Proofs.Schedule.Delivering
import RuleMonitor.Proofs.Schedule.Forgetting
import RuleMonitor.Proofs.Schedule.Masking
import RuleMonitor.Proofs.Schedule.Merging
import RuleMonitor.Proofs.Schedule.Moving
import RuleMonitor.Proofs.Schedule.Separating
import RuleMonitor.Proofs.Schedule.Taking
import RuleMonitor.Proofs.Script.Alongside
import RuleMonitor.Proofs.Script.Chunking
import RuleMonitor.Proofs.Script.Cursors
import RuleMonitor.Proofs.Script.Drafting
import RuleMonitor.Proofs.Script.Drawing
import RuleMonitor.Proofs.Script.Following
import RuleMonitor.Proofs.Script.Generating
import RuleMonitor.Proofs.Script.Layout
import RuleMonitor.Proofs.Script.Logging
import RuleMonitor.Proofs.Script.Nesting
import RuleMonitor.Proofs.Script.Places
import RuleMonitor.Proofs.Script.Printing
import RuleMonitor.Proofs.Script.Reading
import RuleMonitor.Proofs.Script.Recognizing
import RuleMonitor.Proofs.Script.Reporting
import RuleMonitor.Proofs.Script.Seeding
import RuleMonitor.Proofs.Script.Sessions
import RuleMonitor.Proofs.Script.Statements
import RuleMonitor.Proofs.Script.Understanding
import RuleMonitor.Proofs.Script.Words
import RuleMonitor.Proofs.Timestamps
import RuleMonitor.Proofs.Witnesses
