import Thylacine.Mm.SlubSystem
import Thylacine.Mm.UserPool
import Thylacine.NineP.Requests
import Thylacine.NineP.Replies
import Thylacine.NineP.Dirents
import Thylacine.NineP.TagReuse
import Thylacine.NineP.TagTable
import Thylacine.NineP.Answers
import Thylacine.Territory.MountCheck
import Thylacine.Territory.UnionOrder
import Thylacine.Territory.Namespace
import Thylacine.Pipe.PipeRuns
import Thylacine.Handle.Capability
import Thylacine.Burrow.Lifetime
import Thylacine.Larder.Coherence
import Thylacine.Allowance.Authority
import Thylacine.Vma.SpaceRuns
import Thylacine.Weft.Readiness
import Thylacine.Heap.Reservations
import Thylacine.SrvConn.Wakeups
import Thylacine.Poll.PollWakeups
import Thylacine.Notes.NoteLatches
import Thylacine.Sched.RunTrees
import Thylacine.Pane.Rects
