import PageBlocks.Main
import PageBlocks.Render.Template
import PageBlocks.Proofs.Rows.RoundTrip
import PageBlocks.Proofs.Json.Numeral
import PageBlocks.Proofs.Json.Spelling
import PageBlocks.Proofs.Json.ReadBack
import PageBlocks.Proofs.Session.Recorded
import PageBlocks.Proofs.Render.Trace
import PageBlocks.Proofs.Render.Hosts
import PageBlocks.Proofs.Session.Files
import PageBlocks.Proofs.Session.Log
import PageBlocks.Proofs.Session.Actions
import PageBlocks.Proofs.Session.Serving
import PageBlocks.Proofs.Session.Runs
import PageBlocks.Proofs.Tree.Visited
import PageBlocks.Proofs.Session.Transparent
import PageBlocks.Proofs.Rows.Spots
import PageBlocks.Proofs.Rows.Edited
import PageBlocks.Proofs.Session.Reloaded
import PageBlocks.Proofs.Rows.Unmanaged
import PageBlocks.Proofs.Rows.Selected
import PageBlocks.Proofs.Session.Unseen
import PageBlocks.Proofs.Session.History
import PageBlocks.Proofs.Tree.Clashes
import PageBlocks.Proofs.Rows.Carried
import PageBlocks.Proofs.Lint
import PageBlocks.Proofs.Tree.Outline
import PageBlocks.Proofs.Definitions.Canonical
import PageBlocks.Proofs.Session.Placeholders
import PageBlocks.Proofs.Tree.Calls
import PageBlocks.Proofs.Render.Known
import PageBlocks.Proofs.Session.Caching
import PageBlocks.Proofs.Rows.Leaves
import PageBlocks.Proofs.Tree.FieldOrder
import PageBlocks.Proofs.Tree.Variants
import PageBlocks.Proofs.Rows.Seated
import PageBlocks.Proofs.Render.Once
import PageBlocks.Proofs.Render.Keys
import PageBlocks.Proofs.Tree.Outcome
import PageBlocks.Proofs.Tree.Layoutless
import PageBlocks.Proofs.Tree.Alone
import PageBlocks.Proofs.Registry.Chains
import PageBlocks.Proofs.Rows.Fallback
import PageBlocks.Proofs.Session.Persisted
import PageBlocks.Proofs.Definitions.Loaded
import PageBlocks.Proofs.Index.Filled
import PageBlocks.Proofs.Session.Moved
import PageBlocks.Proofs.Name.Slug
