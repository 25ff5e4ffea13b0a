import HyperCommander.Compare.MergeReplace
import HyperCommander.Compare.Overview
import HyperCommander.Compare.MergeLaws
import HyperCommander.Compare.DecisionPlanLemmas
import HyperCommander.Compare.LargeTextResolve
import HyperCommander.Compare.LargeTextRoundTrip
import HyperCommander.Compare.Utf8Validator
import HyperCommander.Compare.LargeTextChange
import HyperCommander.Compare.Recompare
import HyperCommander.Compare.FunctionMatchLemmas
import HyperCommander.Compare.InlineDiffLemmas
import HyperCommander.Compare.LinearDiffTotal
import HyperCommander.Operations.Lanes
import HyperCommander.Operations.Admission
import HyperCommander.Operations.Prompts
import HyperCommander.Operations.Cancellation
import HyperCommander.Operations.AccountedRuns
import HyperCommander.Storage.RefreshOrder
import HyperCommander.Storage.Search
import HyperCommander.Document.Savepoint
import HyperCommander.Document.Tickets
import HyperCommander.Document.Epub.DraftRoundTrip
import HyperCommander.AutoUpdate.ReadBack
import HyperCommander.AutoUpdate.JsonExact
import HyperCommander.Zip.MergeLemmas
import HyperCommander.Operations.DurableLogLemmas
import HyperCommander.Archive.DraftLemmas
import HyperCommander.Text.GlobMeaning
import HyperCommander.Document.ReplacementPlan
import HyperCommander.Settings.CacheTransparent
import HyperCommander.Document.Epub.SourceAnchors
import HyperCommander.Document.Epub.ReferenceRewriting
import HyperCommander.Operations.NameMask
