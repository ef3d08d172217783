import NlWireguard.Handshake
import NlWireguard.Reading
import NlWireguard.Shape

/-!
# Reading what was built

`normal` is the configuration which reading the messages of a configuration
yields. It only forgets how flags were listed, times and keys which mean that
there is none, and what is not sent.
-/

namespace NlWireguard

-- ---------------------------------------------------------------------------
-- Normal flags
-- ---------------------------------------------------------------------------

namespace WireguardParsedAllowedIpFlags

def naming : Bitflags.Naming 32 WireguardParsedAllowedIpFlags where
  named := [removeMe]
  toFlags := toFlags
  ofFlags := ofFlags
  other := other
  disjoint := ⟨by simp [toFlags, WireguardAllowedIpFlags.removeMe], by simp⟩
  ofFlags_toFlags := by decide
  ofFlags_other bits h := if_neg (by simpa [toFlags] using h)

/-- The bits of `flags`, each name once and in the order of declaration. -/
def normal (flags : List WireguardParsedAllowedIpFlags) : List WireguardParsedAllowedIpFlags :=
  naming.ofBits (Bitflags.union (flags.map toFlags))

theorem map_iter (flags : List WireguardParsedAllowedIpFlags) :
    (WireguardAllowedIpFlags.iter (Bitflags.union (flags.map toFlags))).map ofFlags = normal flags :=
  naming.map_iter _

end WireguardParsedAllowedIpFlags

namespace WireguardParsedPeerFlags

def naming : Bitflags.Naming 32 WireguardParsedPeerFlags where
  named := [removeMe, replaceAllowedIps, updateOnly]
  toFlags := toFlags
  ofFlags := ofFlags
  other := other
  disjoint := by
    refine ⟨?_, by decide⟩
    simp [toFlags, WireguardPeerFlags.removeMe, WireguardPeerFlags.replaceAllowedIps,
      WireguardPeerFlags.updateOnly]
  ofFlags_toFlags := by decide
  ofFlags_other bits h := by
    simp only [List.map_cons, List.map_nil, List.mem_cons, List.not_mem_nil, or_false, not_or] at h
    unfold ofFlags
    exact (if_neg h.1).trans ((if_neg h.2.1).trans (if_neg h.2.2))

def normal (flags : List WireguardParsedPeerFlags) : List WireguardParsedPeerFlags :=
  naming.ofBits (bitsOf flags)

theorem map_iter (flags : List WireguardParsedPeerFlags) :
    (WireguardPeerFlags.iter (bitsOf flags)).map ofFlags = normal flags :=
  naming.map_iter _

end WireguardParsedPeerFlags

namespace WireguardParsedDeviceFlags

def naming : Bitflags.Naming 32 WireguardParsedDeviceFlags where
  named := [replacePeers]
  toFlags := toFlags
  ofFlags := ofFlags
  other := other
  disjoint := ⟨by simp [toFlags, WireguardDeviceFlags.replacePeers], by simp⟩
  ofFlags_toFlags := by decide
  ofFlags_other bits h := if_neg (by simpa [toFlags] using h)

def normal (flags : List WireguardParsedDeviceFlags) : List WireguardParsedDeviceFlags :=
  naming.ofBits (bitsOf flags)

theorem map_iter (flags : List WireguardParsedDeviceFlags) :
    (WireguardDeviceFlags.iter (bitsOf flags)).map ofFlags = normal flags :=
  naming.map_iter _

end WireguardParsedDeviceFlags

-- ---------------------------------------------------------------------------
-- Allowed IPs
-- ---------------------------------------------------------------------------

namespace WireguardIpAddress

def normal (ip : WireguardIpAddress) : WireguardIpAddress :=
  { ip with flags := ip.flags.map WireguardParsedAllowedIpFlags.normal }

end WireguardIpAddress

-- ---------------------------------------------------------------------------
-- Peers
-- ---------------------------------------------------------------------------

variable [Base64.Engine]

namespace WireguardPeerParsed

/-- The keys, times and flags as they are read, and no allowed IPs for a peer
which is removed. -/
def normal (p : WireguardPeerParsed) : WireguardPeerParsed :=
  { p with
    presharedKey := p.presharedKey.filter (· ≠ encodeKey .zero)
    lastHandshake := p.lastHandshake.filter (· ≠ .zero)
    allowedIps := if p.Removes then none else p.allowedIps.map (·.map WireguardIpAddress.normal)
    flags := p.flags.map WireguardParsedPeerFlags.normal }

end WireguardPeerParsed

-- ---------------------------------------------------------------------------
-- Configurations
-- ---------------------------------------------------------------------------

namespace WireguardParsed

variable {c : WireguardParsed}

/-- The interface by name if it has one, the peers and flags as they are read,
and each run of entries for one peer merged. -/
def normal (c : WireguardParsed) : WireguardParsed :=
  { c with
    ifaceIndex := if c.ifaceName.isSome then none else c.ifaceIndex
    peers := c.peers.map fun peers =>
      WireguardPeerParsed.merging.coalesce (peers.map WireguardPeerParsed.normal)
    flags := c.flags.map WireguardParsedDeviceFlags.normal }

namespace Plan

end Plan

end WireguardParsed

end NlWireguard
