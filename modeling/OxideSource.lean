import OxideSource.Core.Io
import OxideSource.Core.Machine
import OxideSource.Core.Bits
import OxideSource.Core.Window
import OxideSource.Core.Cursor
import OxideSource.Core.Retries
import OxideSource.Core.Bounded
import OxideSource.Core.Delivery
import OxideSource.Core.Cost
import OxideSource.Core.Shared
import OxideSource.Readers.Mem
import OxideSource.Readers.Sub
import OxideSource.Readers.Concat
import OxideSource.Readers.Requests
import OxideSource.Readers.Reader
import OxideSource.Readers.Bounded
import OxideSource.Readers.Calls
import OxideSource.Readers.Footprint
import OxideSource.Readers.Retries
import OxideSource.Readers.Tree
import OxideSource.Readers.Cost
import OxideSource.Readers.Unwrapping
import OxideSource.Buffered.Ring
import OxideSource.Buffered.HitCopy
import OxideSource.Buffered.Sections
import OxideSource.Buffered.System
import OxideSource.Buffered.Clamping
import OxideSource.Buffered.Wakeups
import OxideSource.Buffered.Traffic
import OxideSource.Buffered.Content
import OxideSource.Buffered.Positions
import OxideSource.Buffered.Bounds
import OxideSource.Buffered.Retention
import OxideSource.Buffered.Readahead
import OxideSource.Buffered.Refines
import OxideSource.Buffered.Brittle
import OxideSource.Buffered.StreamEnd
import OxideSource.Buffered.Failures
import OxideSource.Buffered.Timeouts
import OxideSource.Buffered.Interruptions
import OxideSource.Buffered.Shutdown
import OxideSource.Buffered.Progress
import OxideSource.Buffered.PastEnd
import OxideSource.Uri.Split
import OxideSource.Uri.Percent
import OxideSource.Uri.Base64
import OxideSource.Uri.Data
import OxideSource.Uri.Utf8
import OxideSource.Uri.Spelling
import OxideSource.Uri.Rfc4648
import OxideSource.Uri.Slice
import OxideSource.Uri.Concat
import OxideSource.Uri.Open
import OxideSource.Uri.Named
import OxideSource.Uri.Nesting
import OxideSource.Uri.Sizes
import OxideSource.Uri.Denotation
import OxideSource.Uri.Laws
import OxideSource.Uri.Cost
import OxideSource.Uri.Taxonomy
import OxideSource.Uri.Composition
import OxideSource.Mem.Store
import OxideSource.Mem.Contents
import OxideSource.Mem.Isolation
import OxideSource.Scope.Path
import OxideSource.Scope.FileScope
import OxideSource.Scope.History
import OxideSource.Scope.Verdicts
import OxideSource.Scope.Unchanging
import OxideSource.Scope.Registry
import OxideSource.Scope.Openers
import OxideSource.Scope.Respelling
import OxideSource.Scope.Installations
import OxideSource.Buffered.EndToEnd
import OxideSource.Buffered.Cost
