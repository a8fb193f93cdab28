import Njs.Lib.Allocation
import Njs.Lib.BitGroups
import Njs.Lib.Command
import Njs.Lib.PrefixCode
import Njs.Result
import Njs.Number
import Njs.Utf8
import Njs.Utf8Safe
import Njs.Str.Value
import Njs.Str.Encodings
import Njs.Str.ByteStrings
import Njs.Str.TextEncodings
import Njs.Str.Uri
import Njs.Str.UriLaws
import Njs.Str.UriCodec
import Njs.Lvlhsh.Table
import Njs.Lvlhsh.Lookup
import Njs.Lvlhsh.Convert
import Njs.Lvlhsh.Insert
import Njs.Lvlhsh.Refinement
import Njs.Lvlhsh.Buckets
import Njs.Lvlhsh.Invariant
import Njs.Lvlhsh.Iterator
import Njs.Lvlhsh.Iteration
import Njs.Lvlhsh.Enumeration
import Njs.Lvlhsh.Atomicity
import Njs.Constants.ValueIndex
import Njs.Lib.Blocks
import Njs.Array.Storage
import Njs.Array.Room
import Njs.Array.Methods
import Njs.Array.Elements
import Njs.Array.Refinement
import Njs.Array.Conversions
import Njs.Array.Reentrancy
import Njs.Array.ConversionSafety
import Njs.Strtod
import Njs.Array.Indexes
import Njs.Array.Sparse
import Njs.Array.SparseAgreement
import Njs.Array.SparseReverse
import Njs.Array.Callbacks
import Njs.Array.CallbackSafety
import Njs.Array.StaleAccess
import Njs.Objects.Property
import Njs.Objects.Query
import Njs.Objects.Assignment
import Njs.Objects.Effects
import Njs.Objects.Frame
import Njs.Objects.Outcomes
import Njs.Objects.Extensible
import Njs.Objects.Define
import Njs.Objects.Frozen
import Njs.Objects.FiniteMap
import Njs.Json.Reviver
import Njs.Json.ReviverSafety
import Njs.Json.Text
import Njs.Json.Parse
import Njs.Json.Strings
import Njs.Json.Numerals
import Njs.Json.Loops
import Njs.Json.Acceptance
import Njs.Json.Unambiguity
import Njs.Objects.Chains
import Njs.Objects.Agreement
import Njs.Objects.Kinds
import Njs.Lib.Watching
import Njs.Vmcode.Operators
import Njs.Vmcode.OperatorSafety
import Njs.Date.Calendar
import Njs.Date.Text
import Njs.Date.RoundTrip
import Njs.Lib.ColorTree
import Njs.Rbtree.Heap
import Njs.Rbtree.Shape
import Njs.Rbtree.Rotate
import Njs.Rbtree.Insert
import Njs.Rbtree.Order
import Njs.Rbtree.DeleteFixup
import Njs.Rbtree.Delete
import Njs.Rbtree.Runs
import Njs.Rbtree.Search
import Njs.Rbtree.Destroy
import Njs.Lib.Absorb
import Njs.Crypto.Digests
import Njs.Crypto.Streaming
import Njs.Crypto.Objects
import Njs.Crypto.Runs
import Njs.Events.Queue
import Njs.Events.Runs
import Njs.Modules.Loading
import Njs.Modules.Registry
import Njs.Modules.Soundness
import Njs.Lib.Segments
import Njs.Str.Index
import Njs.Str.Subject
import Njs.Str.OffsetMap
import Njs.Str.Search
import Njs.Str.Occurrences
import Njs.Str.FirstIndex
import Njs.Str.LastIndex
import Njs.Str.Ends
import Njs.Str.Slice
import Njs.Lib.Repetition
import Njs.Str.Pad
import Njs.Regexp.Engine
import Njs.Regexp.Runs
import Njs.Lib.Splitting
import Njs.Str.Split
import Njs.Str.Replace
import Njs.Str.TemplateLaws
import Njs.Str.ReplaceLaws
import Njs.Mp.Pool
import Njs.Mp.Invariant
import Njs.Mp.Moves
import Njs.Mp.Free
import Njs.Mp.Alloc
import Njs.Mp.Create
import Njs.Mp.Runs
import Njs.Lib.Hazard
import Njs.Decimal.Scan
import Njs.Decimal.Accuracy
import Njs.Decimal.Printing
import Njs.Decimal.Keys
import Njs.Integers.Parsers
import Njs.Integers.Wrapping
import Njs.Json.Unescape
import Njs.Json.Chunks
import Njs.Literal.Tokens
import Njs.Literal.Automata
import Njs.Literal.Reading
import Njs.Literal.Decoding
import Njs.Json.Internalize
import Njs.Json.Revival
import Njs.Json.Traversal
import Njs.Json.Holes
import Njs.Json.Loading
import Njs.Json.Reviving
import Njs.Stringify.Serialize
import Njs.Stringify.Walk
import Njs.Stringify.Gap
import Njs.Stringify.Indentation
import Njs.Stringify.ReplacerArray
import Njs.Objects.Shadowing
import Njs.Functions.CallApplyBind
import Njs.Objects.Merging
import Njs.Objects.Defining
import Njs.Objects.Conformance
import Njs.Crypto.Messages
import Njs.Date.Wrapping
import Njs.Regexp.Escape
import Njs.Regexp.Parts
import Njs.Parsing.ArrowFunctions
import Njs.Parsing.Trees
import Njs.Format.Sprintf
import Njs.Regexp.Named
import Njs.Objects.Prototypes
import Njs.Fs.ReadFile
import Njs.Array.BytesFrom
import Njs.Decimal.StrtodRange
import Njs.Decimal.ToFixed
import Njs.Decimal.Layouts
