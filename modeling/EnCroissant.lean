import EnCroissant.Pgn.Lexer
import EnCroissant.Library.Utf8
import EnCroissant.Library.Bracketed
import EnCroissant.Library.Lines
import EnCroissant.Library.Segments
import EnCroissant.Library.Machine
import EnCroissant.Library.Tally
import EnCroissant.Error
import EnCroissant.Chess.Rules
import EnCroissant.Database.RoundTrip
import EnCroissant.Database.Readers
import EnCroissant.Database.PositionSearch
import EnCroissant.Database.DateFilter
import EnCroissant.Pgn.Partition
import EnCroissant.Pgn.EditGame
import EnCroissant.Pgn.Append
import EnCroissant.Practice.MapRuns
import EnCroissant.Practice.DeckRuns
import EnCroissant.Practice.Epochs
import EnCroissant.Practice.JournalCounts
import EnCroissant.Game.ManagerRuns
import EnCroissant.Library.RoseTree
import EnCroissant.Library.MemoRecursion
import EnCroissant.Tree.TrackedPaths
import EnCroissant.Repertoire.Coverage
import EnCroissant.Library.Versioned
import EnCroissant.Practice.NativeDeck
import EnCroissant.Practice.ClientRuns
import EnCroissant.Infra.KeyedLocks
import EnCroissant.Library.BoundedCache
import EnCroissant.Infra.SearchCache
import EnCroissant.Infra.ProgressRuns
import EnCroissant.Infra.DownloadRuns
import EnCroissant.Database.BookkeepingRuns
import EnCroissant.Game.PolyglotMoves
import EnCroissant.Engine.WarmRuns
import EnCroissant.Accounts.ChessComSync
import EnCroissant.Report.Annotations
import EnCroissant.Game.Adjudication
import EnCroissant.Library.ClaimedPool
import EnCroissant.Database.MinimumMaterial
import EnCroissant.Database.MoveNumbers
import EnCroissant.Database.RowStamp
import EnCroissant.Database.SampleGames
import EnCroissant.Game.ClockSettlement
import EnCroissant.Library.WeighedTable
import EnCroissant.Library.Walks
import EnCroissant.Pgn.ScanCache
import EnCroissant.Pgn.HeaderRoundTrip
import EnCroissant.Pgn.Paging
import EnCroissant.Practice.ReviewPages
import EnCroissant.Integers
import EnCroissant.Library.Batches
import EnCroissant.Database.SearchArchive
import EnCroissant.Database.ArchiveLayout
import EnCroissant.Database.ArchiveWriting
import EnCroissant.Tree.Promotion
import EnCroissant.Tree.Navigation
import EnCroissant.Tree.Lines
import EnCroissant.Tree.Annotations
import EnCroissant.Database.Rewriting
import EnCroissant.Engine.BoundedLogs
import EnCroissant.Engine.LogRuns
import EnCroissant.Library.Replacing
import EnCroissant.Engine.Redactions
import EnCroissant.Workspace.Repair
import EnCroissant.Workspace.RepairFacts
import EnCroissant.Tree.Comments
import EnCroissant.Tree.CommentFacts
import EnCroissant.Tree.CommentSplits
import EnCroissant.Tree.Stored
import EnCroissant.Tree.StoredFacts
import EnCroissant.Library.PostOrder
import EnCroissant.Repertoire.Gaps
import EnCroissant.Accounts.AccountImporter
import EnCroissant.Accounts.AccountImports
import EnCroissant.Accounts.Fingerprints
import EnCroissant.Accounts.Coverage
import EnCroissant.Accounts.SyncCursor
import EnCroissant.Engine.LineReader
import EnCroissant.Engine.MultiPv
import EnCroissant.Practice.Opening
import EnCroissant.Report.Variations
import EnCroissant.Report.ExchangeSearch
import EnCroissant.References.LookupRuns
import EnCroissant.Engine.TerminalRedaction
import EnCroissant.Library.AlphaBeta
import EnCroissant.Tree.CommentDocuments
import EnCroissant.Accounts.SignInOutcomes
import EnCroissant.Tree.StoreRuns
import EnCroissant.Pgn.LexedGames
import EnCroissant.Tree.Reloading
import EnCroissant.Tree.RoundTrip
import EnCroissant.Tree.TabStorageRuns
import EnCroissant.Practice.DeckUpdates
