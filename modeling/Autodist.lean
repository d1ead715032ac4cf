import Autodist.Graph
import Autodist.TaskAssigner.Basic
import Autodist.TaskAssigner.AssignTask
import Autodist.TaskAssigner.Worklist
import Autodist.TaskAssigner.Forward
import Autodist.TaskAssigner.Backward
import Autodist.TaskAssigner.Assign
import Autodist.TaskAssigner.Final
import Autodist.TaskAssigner.Values
import Autodist.TaskAssigner.Placement
import Autodist.Network.IpAddress
import Autodist.Network.Address
import Autodist.Barrier.Basic
import Autodist.Barrier.Invariant
import Autodist.Barrier.Properties
import Autodist.Barrier.QueueName
import Autodist.Barrier.Runs
import Autodist.Barrier.Async
