import Zgdb.Lib.Memory
import Zgdb.Lib.Layout
import Zgdb.Lib.Chain
import Zgdb.Lib.LinkedList
import Zgdb.Lib.DoublyLinked
import Zgdb.Lib.OwnedLists
import Zgdb.Lib.Forest
import Zgdb.Lib.Descents
import Zgdb.Lib.Renaming
import Zgdb.Lib.Insertion
import Zgdb.Lib.Run
import Zgdb.Lib.Sequence
import Zgdb.Lib.Stream
import Zgdb.Lib.Munch
import Zgdb.Lib.Outcome
import Zgdb.Lib.Binary64
import Zgdb.Data
import Zgdb.FreeList
import Zgdb.File
import Zgdb.Schema
import Zgdb.Element
import Zgdb.Document
import Zgdb.Convert
import Zgdb.Update
import Zgdb.Stored
import Zgdb.Text
import Zgdb.Blocks
import Zgdb.Area
import Zgdb.Texts
import Zgdb.Store
import Zgdb.Fresh
import Zgdb.Written
import Zgdb.Create
import Zgdb.Insert
import Zgdb.Free
import Zgdb.Delete
import Zgdb.Change
import Zgdb.Grow
import Zgdb.Edit
import Zgdb.Resize
import Zgdb.DeleteRoot
import Zgdb.Updates
import Zgdb.Runs
import Zgdb.Expand
import Zgdb.First
import Zgdb.Tree
import Zgdb.Allocation
import Zgdb.Frame
import Zgdb.RoundTrip
import Zgdb.Ownership
import Zgdb.Reclamation
import Zgdb.Editing
import Zgdb.Again
import Zgdb.Crossing
import Zgdb.RootDeletion
import Zgdb.Reserve
import Zgdb.Spare
import Zgdb.Ids
import Zgdb.Local
import Zgdb.Shrink
import Zgdb.InToast
import Zgdb.Twice
import Zgdb.Scalars
import Zgdb.Integers
import Zgdb.Doubles
import Zgdb.Sizes
import Zgdb.Handle
import Zgdb.Accounting
import Zgdb.Capacity
import Zgdb.ReadBack
import Zgdb.ListNodes
import Zgdb.Ledger
import Zgdb.TreeStack
import Zgdb.ExpandIndexes
import Zgdb.Expansion
import Zgdb.ExpandRecords
import Zgdb.Records
import Zgdb.Creations
import Zgdb.Closing
import Zgdb.Reopening
import Zgdb.Filter
import Zgdb.Find
import Zgdb.Search
import Zgdb.RelativePath
import Zgdb.AbsolutePath
import Zgdb.Duplicates
import Zgdb.Operators
import Zgdb.Parents
import Zgdb.Evaluation
import Zgdb.SearchLists
import Zgdb.Xml
import Zgdb.NodeSearch
import Zgdb.Framing
import Zgdb.Ast
import Zgdb.Numerals
import Zgdb.Encode
import Zgdb.Decode
import Zgdb.PathCodec
import Zgdb.PredicateCodec
import Zgdb.SchemaCodec
import Zgdb.Parser
import Zgdb.Parsing
import Zgdb.Grammar
import Zgdb.Lexer
import Zgdb.Literals
import Zgdb.Scanning
import Zgdb.Requests
import Zgdb.RequestPath
import Zgdb.EmptyResults
import Zgdb.Sessions
import Zgdb.Catalog
import Zgdb.Abstraction
import Zgdb.Service
import Zgdb.Twins
import Zgdb.Connections
import Zgdb.Queries
import Zgdb.Client
import Zgdb.Reading
import Zgdb.Refusals
