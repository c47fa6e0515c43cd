import Laurus.Analysis.FlatGraph
import Laurus.Analysis.Helpers.SynonymGraph
import Laurus.Analysis.Helpers.WordArcs
import Laurus.Analysis.Model.SynonymGraph
import Laurus.Analysis.SynonymGraph
import Laurus.Analysis.SynonymGroups
import Laurus.Bkd.DamagedFile
import Laurus.Bkd.RangeSearch
import Laurus.Boolean.Parallel
import Laurus.Boolean.Semantics
import Laurus.Common.Bundle
import Laurus.Common.Bytes
import Laurus.Common.Chunks
import Laurus.Common.Comp
import Laurus.Common.Cover
import Laurus.Common.LastGroup
import Laurus.Common.NearestChain
import Laurus.Common.ParentForest
import Laurus.Common.Patches
import Laurus.Common.Pieces
import Laurus.Common.PriorityHeap
import Laurus.Common.Rounding
import Laurus.Common.Run
import Laurus.Common.SortDedup
import Laurus.Deletion.Durability
import Laurus.Deletion.LogNumbers
import Laurus.Deletion.Snapshots
import Laurus.Engine.AppliedSeqs
import Laurus.Engine.Grouping
import Laurus.Engine.Helpers.CommitProtocol
import Laurus.Engine.Helpers.CommitReplay
import Laurus.Engine.Helpers.Recovery
import Laurus.Engine.Model.Recovery
import Laurus.Engine.Recovery
import Laurus.Lexical.AutomatonTerms
import Laurus.Lexical.GraphPhrase
import Laurus.Lexical.Helpers.AnalyzedTerms
import Laurus.Lexical.Helpers.Norms
import Laurus.Lexical.Helpers.RegexSyntax
import Laurus.Lexical.Helpers.Span
import Laurus.Lexical.IdFilter
import Laurus.Lexical.Model.AutomatonTerms
import Laurus.Lexical.Model.Norms
import Laurus.Lexical.Model.PhraseGraph
import Laurus.Lexical.Model.Span
import Laurus.Lexical.Norms
import Laurus.Lexical.NumericRange
import Laurus.Lexical.ParseField
import Laurus.Lexical.RangeLiteral
import Laurus.Lexical.SegmentManifest
import Laurus.Lexical.SelfPhrase
import Laurus.Lexical.SpanQueries
import Laurus.Lexical.StoredFields
import Laurus.Lexical.TextArray
import Laurus.Lexical.Wildcard
import Laurus.Matcher.PostingCursor
import Laurus.Matcher.Semantics
import Laurus.Posting.Decoder
import Laurus.Posting.Layouts
import Laurus.Reader.Agreement
import Laurus.Reader.MergedStream
import Laurus.Reader.Model.MergedCursor
import Laurus.Search.BlockMax
import Laurus.Search.FieldSort
import Laurus.Search.Helpers.TermBounds
import Laurus.Search.Model.TermBounds
import Laurus.Search.Ranking
import Laurus.Search.ScoreBounds
import Laurus.Search.SortKey
import Laurus.Search.TermBounds
import Laurus.Storage.BlockFile
import Laurus.Storage.Helpers.Structured
import Laurus.Storage.Manifest
import Laurus.Storage.RoundTrip
import Laurus.Storage.Varint
import Laurus.Store.DocumentRefinement
import Laurus.Store.LossWindow
import Laurus.Store.WalRefinement
import Laurus.Util.Levenshtein
import Laurus.Vector.Fanout
import Laurus.Vector.GraphBlock
import Laurus.Vector.Helpers.ClusterLabels
import Laurus.Vector.Helpers.TokenPooling
import Laurus.Vector.HnswSearch
import Laurus.Vector.Model.TokenPooling
import Laurus.Vector.MultiVectorSegment
import Laurus.Vector.ReaderCache
import Laurus.Vector.SegmentRegistry
import Laurus.Vector.SegmentedIndex
import Laurus.Vector.StoreSearch
import Laurus.Vector.TokenPooling
