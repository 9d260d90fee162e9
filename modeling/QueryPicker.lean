import QueryPicker.Binary64.Reader
import QueryPicker.Exchange.History
import QueryPicker.Introspection.Encoder
import QueryPicker.Main
import QueryPicker.Picker.Run
import QueryPicker.Proofs.CheckedSelection
import QueryPicker.Proofs.LazyExpansion
import QueryPicker.Proofs.Reloading
import QueryPicker.Schema.Stored
import QueryPicker.Tree.Run
import QueryPicker.Proofs.CommitLog
import QueryPicker.Proofs.ForgottenHistory
import QueryPicker.Proofs.MixedAncestors
import QueryPicker.Proofs.KeptArguments
import QueryPicker.Proofs.MadeNodes
import QueryPicker.Proofs.CheckingOrder
import QueryPicker.Proofs.PendingNodes
import QueryPicker.Proofs.ResolvedSelections
import QueryPicker.Proofs.FailedSteps
import QueryPicker.Proofs.LenientDecoding
import QueryPicker.Proofs.ReportedErrors
import QueryPicker.Proofs.CachedSchemas
import QueryPicker.Proofs.BoundedPaths
import QueryPicker.Proofs.ReportedChanges
import QueryPicker.Proofs.RecordedExchanges
import QueryPicker.Proofs.GreatestDepth
import QueryPicker.Proofs.ParsedPaths
import QueryPicker.Proofs.PendingSelections
import QueryPicker.Proofs.InlinedFragments
import QueryPicker.Proofs.EmptySkeletons
import QueryPicker.Proofs.FullScans
import QueryPicker.Proofs.AddedSelections
import QueryPicker.Proofs.LiteralTexts
import QueryPicker.Proofs.SampledPaths
import QueryPicker.Proofs.SampledNulls
import QueryPicker.Proofs.SampledRuns
import QueryPicker.Proofs.KeywordAtCursor
import QueryPicker.Proofs.RefusedResults
import QueryPicker.Proofs.WrittenResponses
import QueryPicker.Proofs.DottedPaths
import QueryPicker.Proofs.MaximalPaths
import QueryPicker.Proofs.TreeWalks
import QueryPicker.Proofs.RoundedQuotients
