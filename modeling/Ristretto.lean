import Ristretto.Strings
import Ristretto.Z.Flags
import Ristretto.Z.RoundTrip
import Ristretto.Z.Getters
import Ristretto.Z.Compose
import Ristretto.Cache
import Ristretto.Policies
import Ristretto.Concurrent
import Ristretto.Ttl
import Ristretto.Expiry
import Ristretto.Store
