import Bpt.Crs.Info.Version
import Bpt.Util.Name
import Bpt.Base.SortedRange
import Bpt.Crs.Info.Package
import Bpt.Solve.Requirement
import Bpt.Base.Keyed
import Bpt.Base.Reach
import Bpt.Base.Saturate
import Bpt.Base.SortedSearch
import Bpt.Base.Transaction
import Bpt.Crs.CacheDb
import Bpt.Crs.CacheInvariant
import Bpt.Crs.CacheQuery
import Bpt.Solve.Assertions
import Bpt.Solve.Closure
import Bpt.Solve.MemoProvider
import Bpt.Solve.Solve
import Bpt.Base.Coroutine
import Bpt.Base.Fallible
import Bpt.Build.CompileExec
import Bpt.Build.History
import Bpt.Build.Recompile
import Bpt.Build.Recorded
import Bpt.Build.DepRule
import Bpt.Build.PlanOutputs
import Bpt.Cli.BuildCommon
import Bpt.Cli.ResolvedUses
import Bpt.Util.Fnmatch
import Bpt.Util.Glob
import Bpt.Util.GlobScan
import Bpt.Util.GlobAgree
import Bpt.Util.FileTree
import Bpt.Sdist.SourceFile
import Bpt.Crs.Prefetch
import Bpt.Crs.RepoIndex
import Bpt.Crs.BadEntries
import Bpt.Crs.Enabling
import Bpt.Crs.Freshness
import Bpt.Crs.Visibility
import Bpt.Util.Proc
import Bpt.UsageReqs.Paths
import Bpt.Util.Migrate
import Bpt.Util.Shlex
import Bpt.Util.ShellWords
import Bpt.Debate.Progress
import Bpt.Util.Http.Body
import Bpt.Util.Http.Pool
import Bpt.Project.RoundTrip
import Bpt.Build.EmitIndex
import Bpt.Project.DependencyReaders
import Bpt.Project.Shorthand
import Bpt.Project.SpdxTable
import Bpt.Project.Spdx
import Bpt.Project.SpdxTokens
import Bpt.Project.SpdxGrammar
import Bpt.Project.SpdxAccepts
import Bpt.Base.SplitFold
import Bpt.Base.Uri
import Bpt.Util.Http.Redirects
import Bpt.Util.NameDefects
import Bpt.Util.GlobMatch
import Bpt.Libman.Separator
import Bpt.Libman.Reread
import Bpt.Libman.Schema
import Bpt.Util.FromChars
import Bpt.Crs.PkgIdText
import Bpt.Project.SpdxPrint
import Bpt.Base.Wildcard
import Bpt.Util.CtPattern
import Bpt.Util.FnmatchAgree
import Bpt.Debate.Events
import Bpt.Base.Deal
import Bpt.Debate.Guarantees
import Bpt.Debate.Spellings
import Bpt.Base.UniqueMap
import Bpt.Libman.LibraryIndex
import Bpt.Base.EditScript
import Bpt.Base.Iota
import Bpt.Util.Dym
import Bpt.Base.SipHash
import Bpt.Util.Siphash
import Bpt.Base.Lts
import Bpt.Util.Parallel
import Bpt.Util.ParallelRuns
import Bpt.Base.Sgr
import Bpt.Fansi.Writer
import Bpt.Fansi.Display
import Bpt.Fansi.Styled
import Bpt.Fansi.StylingOff
import Bpt.Base.While
import Bpt.Util.NormalizePath
import Bpt.Util.DidYouMean
import Bpt.Toolchain.Prep
import Bpt.Toolchain.FromJson
import Bpt.Base.Decides
import Bpt.Toolchain.Deduction
import Bpt.Toolchain.Builtin
import Bpt.Util.Proximate
import Bpt.Toolchain.Command
import Bpt.Base.Marked
import Bpt.Util.Replace
import Bpt.Toolchain.Readback
import Bpt.Toolchain.GnuDefaults
import Bpt.Build.CompileCommand
import Bpt.Build.Execution
import Bpt.Build.LinkLine
import Bpt.Build.Rebuild
import Bpt.Base.Phases
import Bpt.Crs.Delivery
import Bpt.Cli.RepoImport
import Bpt.Build.StepCommands
