import AnuDB.Lib.Prog
import AnuDB.Lib.Action
import AnuDB.Lib.Interleave
import AnuDB.Lib.Loop
import AnuDB.Lib.Stdio
import AnuDB.Lib.Bytes
import AnuDB.Lib.Assoc
import AnuDB.Lib.Binary64
import AnuDB.Json
import AnuDB.StorageEngine
import AnuDB.Names
import AnuDB.World
import AnuDB.Lib.Batch
import AnuDB.Writes
import AnuDB.Keys
import AnuDB.Msgpack
import AnuDB.Document
import AnuDB.Update
import AnuDB.ArrayUpdates
import AnuDB.Paths
import AnuDB.Stumbles
import AnuDB.Removals
import AnuDB.Collection
import AnuDB.DocumentCalls
import AnuDB.Atomicity
import AnuDB.Frame
import AnuDB.Operations
import AnuDB.Index
import AnuDB.IndexSound
import AnuDB.IndexComplete
import AnuDB.DocumentMap
import AnuDB.Lib.Scan
import AnuDB.Query
import AnuDB.Conjunction
import AnuDB.Range
import AnuDB.Disjunction
import AnuDB.Repeats
import AnuDB.KeyIdentity
import AnuDB.StringKeys
import AnuDB.NumberKeys
import AnuDB.Concurrency
import AnuDB.IndexRace
import AnuDB.Replies
import AnuDB.Workers
import AnuDB.Survival
import AnuDB.Database
import AnuDB.IndexDrops
import AnuDB.Creates
import AnuDB.Persistence
import AnuDB.DropCollection
import AnuDB.Interference
import AnuDB.Events
import AnuDB.Objects
import AnuDB.Cache
import AnuDB.ReadAll
import AnuDB.Handle
import AnuDB.Listings
import AnuDB.Lib.Utf8
import AnuDB.JsonText
import AnuDB.JsonFormat
import AnuDB.Import
import AnuDB.ImportLoop
import AnuDB.Identity
import AnuDB.Scalars
import AnuDB.Export
import AnuDB.Server
import AnuDB.Requests
import AnuDB.Texts
import AnuDB.IndexBuild
import AnuDB.Rebuild
import AnuDB.Handlers
import AnuDB.Readers
import AnuDB.Commands
import AnuDB.Pointers
import AnuDB.Delivered
import AnuDB.IntKeys
import AnuDB.GeneratedIds
import AnuDB.LesserScan
import AnuDB.ExportFiles
import AnuDB.ExportThreads
import AnuDB.LoadFile
import AnuDB.Answers
import AnuDB.Lib.Independence
import AnuDB.Clients
import AnuDB.NumberOrder
import AnuDB.HandlerFrames
import AnuDB.Responses
import AnuDB.Replica
import AnuDB.Lib.Redo
import AnuDB.Redelivery
import AnuDB.Lib.Local
import AnuDB.UpdateRoots
import AnuDB.LostUpdates
import AnuDB.Recovery
import AnuDB.Lib.Marks
import AnuDB.Agreement
