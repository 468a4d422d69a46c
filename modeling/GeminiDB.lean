import GeminiDB.Lib.Machine
import GeminiDB.Lib.Program
import GeminiDB.Lib.Serial
import GeminiDB.Lib.Radix
import GeminiDB.Lib.WriteBatch
import GeminiDB.Lib.SeqDeque
import GeminiDB.Lib.Decimal
import GeminiDB.Util.CInt
import GeminiDB.Util.Strings
import GeminiDB.Data.Binlog
import GeminiDB.Data.Keys
import GeminiDB.Data.Kv
import GeminiDB.Data.KvSerial
import GeminiDB.Data.Decode
import GeminiDB.Data.Queue
import GeminiDB.Data.QueueEffect
import GeminiDB.Data.QueueRep
import GeminiDB.Data.Mutation
import GeminiDB.Data.QueueCalls
import GeminiDB.Data.QueueShape
import GeminiDB.Net.Resp
import GeminiDB.Proc.Kv
import GeminiDB.Proc.Calls
import GeminiDB.Proc.Queue
import GeminiDB.Lib.Memory
import GeminiDB.Lib.Scanner
import GeminiDB.Net.Link
import GeminiDB.Net.Recv
import GeminiDB.Net.Stream
import GeminiDB.Data.Frame
import GeminiDB.Lib.PyStr
import GeminiDB.Net.Bounds
import GeminiDB.Util.Record
import GeminiDB.Net.Fde
import GeminiDB.Net.FdeEpoll
import GeminiDB.Net.FdeSelect
import GeminiDB.Net.Headers
import GeminiDB.Net.Input
import GeminiDB.Net.Limit
import GeminiDB.Net.Output
import GeminiDB.Net.Server
import GeminiDB.Net.Custody
import GeminiDB.Net.Moves
import GeminiDB.Net.Runs
import GeminiDB.Net.Holders
import GeminiDB.Net.Room
import GeminiDB.Net.Pipeline
import GeminiDB.Net.Flush
import GeminiDB.Net.Shortage
import GeminiDB.Tools.Client
import GeminiDB.Util.Thread
import GeminiDB.Data.Peek
import GeminiDB.Data.KeyOrder
import GeminiDB.Util.BufferRuns
import GeminiDB.Util.Escape
import GeminiDB.Util.Number
import GeminiDB.Util.Log
import GeminiDB.Lib.KeyTree
import GeminiDB.Util.ConfigPath
import GeminiDB.Util.ConfigLoad
import GeminiDB.Util.ConfigSave
import GeminiDB.Util.ConfigWhole
import GeminiDB.Data.Api
import GeminiDB.Data.Database
import GeminiDB.Proc.Api
import GeminiDB.Proc.Table
import GeminiDB.Serv.Linear
import GeminiDB.Serv.Reads
import GeminiDB.Serv.Sequential
import GeminiDB.Serv.Workers
import GeminiDB.Serv.Writes
import GeminiDB.Lib.Tasks
import GeminiDB.Serv.Calls
import GeminiDB.Serv.Order
import GeminiDB.Serv.Progress
import GeminiDB.Serv.Queues
import GeminiDB.Net.Effort
import GeminiDB.Serv.Rest
