import Metl.Queues.SpscQueue
import Metl.Queues.ByteStream
import Metl.Queues.MpmcFailure
import Metl.Pools.HandleHistory
import Metl.Pools.PoolOwnership
import Metl.Pools.Reentrancy
import Metl.Arena.Unwinding
import Metl.Arena.MonotonicBuffer
import Metl.Tables.WideKeys
import Metl.Tables.Bitset
import Metl.Tables.RemovalReentrancy
import Metl.Control.SchedulerRounds
import Metl.Control.EventDelivery
import Metl.Control.Fsm
import Metl.Control.DeadlineOrder
import Metl.Control.TickExtender
import Metl.Control.OnceFlag
import Metl.Lists.ListRefinement
import Metl.Lists.ForwardRefinement
import Metl.Vocab.ExpectedRuns
import Metl.Tables.FlatRefinement
import Metl.Tables.EraseWhileIterating
import Metl.Sequences.RingRefinement
import Metl.Sequences.NestedInsertion
import Metl.Codes.CrcBursts
import Metl.Text.Exactness
import Metl.Text.StringOrder
import Metl.Vocab.CallableRuns
import Metl.Vocab.ReferenceRuns
