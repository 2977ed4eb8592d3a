import CodeLayout.Options.Setting
import CodeLayout.Options.Check
import CodeLayout.Options.Environment
import CodeLayout.Options.Record
import CodeLayout.Segmentation
import CodeLayout.Indexed
import CodeLayout.Time.TriggerSet
import CodeLayout.Order.Text
import CodeLayout.Statistics
import CodeLayout.Hotness
import CodeLayout.Forwarding
import CodeLayout.Safepoint
import CodeLayout.Placement
import CodeLayout.Startup
import CodeLayout.Toml.Statement
import CodeLayout.Toml.Printer
import CodeLayout.Launch.Arguments
import CodeLayout.Launch.Config
import CodeLayout.Launch.Program
import CodeLayout.Main
import CodeLayout.Proofs.Heap.Coverage
import CodeLayout.Proofs.Heap.Memory
import CodeLayout.Proofs.Size.Rounding
import CodeLayout.Proofs.Heap.Valid
import CodeLayout.Proofs.Heap.Allocation
import CodeLayout.Proofs.Cache.Valid
import CodeLayout.Proofs.Cache.Allocation
import CodeLayout.Proofs.Placement.Lookup
import CodeLayout.Proofs.Placement.Held
import CodeLayout.Proofs.Transit.Steps
import CodeLayout.Proofs.Transit.Relocation
import CodeLayout.Proofs.Engine.History
import CodeLayout.Proofs.Engine.Pass
import CodeLayout.Proofs.Engine.Consistency
import CodeLayout.Proofs.Engine.Counters
import CodeLayout.Proofs.Engine.Keys
import CodeLayout.Proofs.Forwarding.Chain
import CodeLayout.Proofs.Transit.Hops
import CodeLayout.Proofs.Engine.Resolution
import CodeLayout.Proofs.Placement.Planning
import CodeLayout.Proofs.Transit.Duties
import CodeLayout.Proofs.Transit.Outcome
import CodeLayout.Proofs.Engine.Delivery
import CodeLayout.Proofs.Heap.Spacing
import CodeLayout.Proofs.Heap.Room
import CodeLayout.Proofs.Heap.Layout
import CodeLayout.Proofs.Heap.Requests
import CodeLayout.Proofs.Cache.Room
import CodeLayout.Proofs.Cache.Usable
import CodeLayout.Proofs.Cache.Outline
import CodeLayout.Proofs.Placement.Assignment
import CodeLayout.Proofs.Transit.Stages
import CodeLayout.Proofs.Transit.Room
import CodeLayout.Proofs.Transit.Errands
import CodeLayout.Proofs.Transit.Reports
import CodeLayout.Proofs.Transit.Whereabouts
import CodeLayout.Proofs.Transit.Outline
import CodeLayout.Proofs.Transit.Ample
import CodeLayout.Proofs.Transit.Packing
import CodeLayout.Proofs.Transit.Realisation
import CodeLayout.Proofs.Engine.Readiness
import CodeLayout.Proofs.Engine.Discipline
import CodeLayout.Proofs.Engine.Outline
import CodeLayout.Proofs.Engine.Reports
import CodeLayout.Proofs.Engine.Repetition
import CodeLayout.Proofs.Engine.Realisation
import CodeLayout.Proofs.FileTree.Removal
import CodeLayout.Proofs.Startup.Files
import CodeLayout.Proofs.Engine.Currency
import CodeLayout.Proofs.Engine.SeedTargets
import CodeLayout.Proofs.Engine.Seeding
import CodeLayout.Proofs.Time.Firings
import CodeLayout.Proofs.Order.Lines
import CodeLayout.Proofs.Order.Stores
import CodeLayout.Proofs.Order.Grammar
import CodeLayout.Proofs.Order.Rereading
import CodeLayout.Proofs.Startup.Checks
import CodeLayout.Proofs.Engine.Gathering
import CodeLayout.Proofs.Engine.Recording
import CodeLayout.Proofs.Startup.Fitting
import CodeLayout.Proofs.Placement.Greedy
import CodeLayout.Proofs.Placement.Stability
import CodeLayout.Proofs.Heap.Stacking
import CodeLayout.Proofs.Transit.Filling
import CodeLayout.Proofs.Engine.Filling
import CodeLayout.Proofs.Transit.Descent
import CodeLayout.Proofs.Transit.Ledger
import CodeLayout.Proofs.Engine.Ledger
import CodeLayout.Proofs.Heap.FirstFit
import CodeLayout.Proofs.Placement.Listing
import CodeLayout.Proofs.Engine.Listing
import CodeLayout.Proofs.Engine.Bystanders
import CodeLayout.Proofs.Transit.Evictions
import CodeLayout.Proofs.Transit.Tally
import CodeLayout.Proofs.Engine.Totals
import CodeLayout.Proofs.Engine.Tally
import CodeLayout.Proofs.Cache.Overflow
import CodeLayout.Proofs.Engine.Installation
import CodeLayout.Proofs.Time.Earliest
import CodeLayout.Proofs.Time.Grammar
import CodeLayout.Proofs.Hotness.History
import CodeLayout.Proofs.Hotness.Ranking
import CodeLayout.Proofs.Time.Listing
import CodeLayout.Proofs.Time.Next
import CodeLayout.Proofs.Options.Values
import CodeLayout.Proofs.Launch.Spelling
import CodeLayout.Proofs.Launch.Overriding
import CodeLayout.Proofs.Size.Checked
import CodeLayout.Proofs.Segmentation.Carving
import CodeLayout.Proofs.Placement.Budgets
import CodeLayout.Proofs.Engine.Budgets
import CodeLayout.Proofs.Startup.Sizing
import CodeLayout.Proofs.Session.Ties
import CodeLayout.Proofs.Launch.Selectors
import CodeLayout.Proofs.Launch.Selections
import CodeLayout.Proofs.Safepoint.Arrivals
import CodeLayout.Proofs.Forwarding.Circles
import CodeLayout.Proofs.Histogram.Quantiles
import CodeLayout.Proofs.Size.Grammar
import CodeLayout.Proofs.Size.Multiples
