import Buffers.Lib.Ring
import Buffers.Algorithms
import Buffers.SliceOver
import Buffers.Theorems.Slice
import Buffers.Theorems.Copy
import Buffers.Theorems.CircularBuffer
import Buffers.Theorems.CircularBuffer.Word
import Buffers.Theorems.FlatBuffer
import Buffers.Theorems.FlatBuffer.Queue
import Buffers.Theorems.FlatBuffer.Word
import Buffers.Theorems.StringBuffer
import Buffers.Theorems.AnyDynamicBuffer
import Buffers.Theorems.AnyDynamicBuffer.Segments
import Buffers.Theorems.AnySource
import Buffers.Theorems.AnyReadSource
import Buffers.Theorems.AnyReadSource.Optional
import Buffers.Theorems.ReadLoops
import Buffers.Theorems.AnyBuffers
import Buffers.Theorems.Algorithms
import Buffers.Theorems.SliceOver
import Buffers.Theorems.AnyBuffers.Slices
import Buffers.Theorems.AnyBuffers.Iterators
import Buffers.Theorems.AnyBuffers.Steps
import Buffers.Theorems.AnyBuffers.Shared
import Buffers.Theorems.AnyBuffers.Plan
import Buffers.Theorems.AnyBuffers.Stale
import Buffers.AnySource.Shared
import Buffers.Theorems.AnySource.Shared
import Buffers.Lib.Tape
import Buffers.Theorems.AnySource.Streams
import Buffers.Theorems.AnySource.Contents
import Buffers.Theorems.Wrapped
import Buffers.ReadAll
import Buffers.Theorems.ReadAll
import Buffers.Pipe
import Buffers.Theorems.Pipe
import Buffers.Theorems.CircularBuffer.Queue
import Buffers.AnyBuffers.Shared
