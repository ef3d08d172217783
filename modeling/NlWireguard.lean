import NlWireguard.Lib.ExceptLaws
import NlWireguard.Lib.NextFit
import NlWireguard.Lib.Folds
import NlWireguard.Lib.Coalesce
import NlWireguard.Lib.Bitflags
import NlWireguard.Lib.Base64
import NlWireguard.Lib.Repeats
import NlWireguard.Lib.Prefixes
import NlWireguard.Lib.Interleave
import NlWireguard.Lib.Lockstep
import NlWireguard.Net
import NlWireguard.Packet
import NlWireguard.Error
import NlWireguard.PeerParsed
import NlWireguard.Parsed
import NlWireguard.Handle
import NlWireguard.PeerLaws
import NlWireguard.Handshake
import NlWireguard.ParsedLaws
import NlWireguard.Shape
import NlWireguard.Lengths
import NlWireguard.Optimal
import NlWireguard.Single
import NlWireguard.Kernel
import NlWireguard.Apply
import NlWireguard.Creates
import NlWireguard.Reading
import NlWireguard.Runs
import NlWireguard.RoundTrip
import NlWireguard.Cut
import NlWireguard.Shuffle
import NlWireguard.Reapply
import NlWireguard.Validation
import NlWireguard.Leaks
import NlWireguard.Replies
import NlWireguard.Overflow
import NlWireguard.Secrets
import NlWireguard.Drive
import NlWireguard.Changes
import NlWireguard.Invariant
import NlWireguard.Again
import NlWireguard.Served
import NlWireguard.Frame
import NlWireguard.Concurrent
import NlWireguard.Meaning
import NlWireguard.Report
import NlWireguard.Remove
import NlWireguard.Observed
import NlWireguard.Counts
import NlWireguard.Hidden
import NlWireguard.Session
import NlWireguard.Reorder
import NlWireguard.Precedence
import NlWireguard.Batches
import NlWireguard.Sequence
import NlWireguard.Stable
