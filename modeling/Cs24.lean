import Cs24.Jvm.Int32
import Cs24.Jvm.Class
import Cs24.Jvm.Execute
import Cs24.Jvm.Arith
import Cs24.Jvm.StackDepth
import Cs24.Jvm.Dispatch
import Cs24.Jvm.Termination
import Cs24.Jvm.Arrays
import Cs24.Jvm.Reference
import Cs24.Jvm.Simulation
import Cs24.Jvm.Refinement
import Cs24.Fat16.DirectoryTree
import Cs24.Fat16.Follow
import Cs24.Fat16.Extract
import Cs24.Probe.Recover
