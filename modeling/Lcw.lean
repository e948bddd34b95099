import Lcw.Api.Conservation
import Lcw.Api.Progress
import Lcw.Gex.Delivery
import Lcw.Lci.Contexts
import Lcw.Lci2.Contexts
import Lcw.Mpi.Absorption
import Lcw.Mpi.Isolation
import Lcw.Mpi.Lifetime
import Lcw.Mpi.Locking
import Lcw.Mpi.Payload
import Lcw.Mpi.Places
import Lcw.Mpi.Refusal
import Lcw.Mpi.Roster
import Lcw.Mpi.Service
import Lcw.Mpi.Sizes
import Lcw.Mpi.Turns
import Lcw.Util.Selection
import Lcw.Mpi.Interchange
