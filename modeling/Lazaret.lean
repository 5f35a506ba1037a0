import Lazaret.Quic.Stream
import Lazaret.Quic.Settlement
import Lazaret.Quic.Duplicates
import Lazaret.Quic.KeyUpdate
import Lazaret.Tlog.Proofs
import Lazaret.H2.Balance
import Lazaret.H2.HuffmanExact
import Lazaret.Archive.RangedZip
import Lazaret.Quic.Ledger
import Lazaret.Quic.PlainArray
import Lazaret.Quic.StreamRuns
import Lazaret.Tuf.Lookup
import Lazaret.X509.PathBuilding
import Lazaret.Http1.Reusable
import Lazaret.Netaddr.Hops
import Lazaret.Baseline.Apply
import Lazaret.Sca.Merge
import Lazaret.Sca.Inventory
import Lazaret.Sca.IndexAgrees
import Lazaret.Sca.VersionOrder
import Lazaret.Quic.PacketNumber
import Lazaret.Quic.FrameAccepted
import Lazaret.Quic.TransportParamsWritten
import Lazaret.Archive.CollisionGroups
import Lazaret.Archive.Charged
import Lazaret.Tuf.PathLanguage
import Lazaret.Tuf.FetchTarget
import Lazaret.Json.Canonical
import Lazaret.Tuf.Canonical
import Lazaret.Inflate.HuffLookup
import Lazaret.Notes.Accepted
import Lazaret.Idna.Stable
import Lazaret.X509.Verdicts
import Lazaret.Asn1.Oid
import Lazaret.Crypto.Switching
import Lazaret.Crypto.X25519
import Lazaret.Crypto.Ghash
import Lazaret.Crypto.Powers
import Lazaret.Quic.RangeSetRuns
import Lazaret.Linre.Alphabet
import Lazaret.Inflate.Checksums
