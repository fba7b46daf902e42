import Monty.Async.Nesting
import Monty.Async.Outcome
import Monty.Bytecode.Depth
import Monty.Call.Binding
import Monty.Codec.Crc
import Monty.Decimal.Order
import Monty.Fs.MountTable
import Monty.Fs.Scan
import Monty.Heap.Cascade
import Monty.Heap.WeakIndex
import Monty.Json.StringCache
import Monty.Math.Combinatorics
import Monty.Proto.Budget
import Monty.Sequence.Range
import Monty.Sorting.Short
import Monty.Table.FindIndex
import Monty.Table.Walk
import Monty.Time.Timedelta
