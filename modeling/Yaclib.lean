import Yaclib.Algo.UniqueCore
import Yaclib.Async.Wait.Safety
import Yaclib.Async.When.WhenAny
import Yaclib.Coro.Mutex.Cancel
import Yaclib.Coro.Mutex.Executors
import Yaclib.Coro.SharedMutex.Fairness
import Yaclib.Exe.Strand.Safety
import Yaclib.Runtime.FairThreadPool.SoftStop
import Yaclib.Algo.OneShotEvent.Jobs
import Yaclib.Algo.WaitGroup.Safety
import Yaclib.Fault.Atomic
import Yaclib.Fault.Fiber.ThreadLocalProxy
import Yaclib.Fault.Fiber.Mutex
import Yaclib.Fault.Fiber.RecursiveMutex
import Yaclib.Fault.Fiber.SharedMutex
import Yaclib.Fault.Fiber.Scheduler.Membership
import Yaclib.Fault.Fiber.Scheduler.Deadlines
import Yaclib.Algo.Core.Safety
import Yaclib.Algo.SharedCore.Safety
import Yaclib.Fault.Fiber.BiList
import Yaclib.Util.List
import Yaclib.Util.IntrusivePtr
import Yaclib.Util.Result
import Yaclib.Coro.Await.Safety
import Yaclib.Coro.Guard
