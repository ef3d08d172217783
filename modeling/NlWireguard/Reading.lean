import NlWireguard.Lib.Coalesce
import NlWireguard.Lib.Folds
import NlWireguard.PeerLaws

/-!
# What reading messages yields

Peers are read one by one and merged into the one before them if it has the
same key: `pushPeer` is the general way to coalesce neighbours, so neither the
cut of a peer into chunks nor the one of the chunks into messages matters.
-/

namespace NlWireguard

-- ---------------------------------------------------------------------------
-- Merging peers
-- ---------------------------------------------------------------------------

namespace WireguardPeerParsed

def merging : Coalesce.Mergeable WireguardPeerParsed String where
  key := publicKey
  merge := mergeContinuation
  key_merge a b h := Option.or_of_isSome h
  assoc a b c := by
    simp only [mergeContinuation, mk.injEq, Option.or_assoc, true_and]
    constructor
    · cases c.allowedIps <;> cases b.allowedIps <;> cases a.allowedIps <;> simp
    · cases c.flags <;> cases b.flags <;> simp

theorem pushPeer_eq : pushPeer = merging.push := by
  funext peers peer
  unfold pushPeer Coalesce.Mergeable.push
  cases peers.getLast? <;> rfl

def continuation (key : String) (part : List WireguardIpAddress) : WireguardPeerParsed where
  publicKey := some key
  allowedIps := some part

theorem mergeContinuation_continuation (p : WireguardPeerParsed) (hkey : p.publicKey = some key)
    (part : List WireguardIpAddress) :
    p.mergeContinuation (continuation key part) =
      { p with allowedIps := some (p.allowedIps.getD [] ++ part) } := by
  cases hips : p.allowedIps <;> simp [mergeContinuation, continuation, hkey, hips]

/-- The allowed IPs of a peer after further chunks. -/
def joinParts (ips : Option (List WireguardIpAddress)) (parts : List (List WireguardIpAddress)) :
    Option (List WireguardIpAddress) :=
  parts.foldl (fun ips part => some (ips.getD [] ++ part)) ips

theorem joinParts_eq (h : ips = none → parts ≠ []) :
    joinParts ips parts = some (ips.getD [] ++ parts.flatten) := by
  induction parts generalizing ips with
  | nil =>
    obtain ⟨all, rfl⟩ := Option.ne_none_iff_exists'.mp fun hnone => h hnone rfl
    simp [joinParts]
  | cons part parts ih =>
    have hrest : joinParts (some (ips.getD [] ++ part)) parts =
        some (ips.getD [] ++ part ++ parts.flatten) := ih fun hnone => nomatch hnone
    simpa [joinParts] using hrest

theorem foldl_continuation (p : WireguardPeerParsed) (hkey : p.publicKey = some key)
    (parts : List (List WireguardIpAddress)) :
    (parts.map (continuation key)).foldl mergeContinuation p =
      { p with allowedIps := joinParts p.allowedIps parts } := by
  induction parts generalizing p with
  | nil => rfl
  | cons part parts ih =>
    rw [List.map_cons, List.foldl_cons, p.mergeContinuation_continuation hkey]
    exact ih { p with allowedIps := some (p.allowedIps.getD [] ++ part) } hkey

/-- A peer is cut into pieces by taking allowed IPs away from its end. -/
theorem pieces_continuation {whole first : WireguardPeerParsed} (hkey : first.publicKey = some key)
    (hwhole : whole = { first with allowedIps := joinParts first.allowedIps parts }) :
    merging.Pieces whole (first :: parts.map (continuation key)) := by
  refine .intro (fun c hc => ?_) ((first.foldl_continuation hkey parts).trans hwhole.symm)
  obtain ⟨part, -, rfl⟩ := List.mem_map.mp hc
  exact ⟨rfl, hkey⟩

end WireguardPeerParsed

/-- The allowed IPs of an attribute which can be read. -/
def readIps (ips : List WireguardAllowedIp) : List WireguardIpAddress :=
  ips.filterMap fun ip => (WireguardIpAddress.tryFrom ip).toOption

theorem readIps_append (ips more : List WireguardAllowedIp) :
    readIps (ips ++ more) = readIps ips ++ readIps more :=
  List.filterMap_append

theorem readIps_flatten (parts : List (List WireguardAllowedIp)) :
    readIps parts.flatten = (parts.map readIps).flatten := by
  induction parts with
  | nil => rfl
  | cons part parts ih => rw [List.flatten_cons, readIps_append, ih, List.map_cons, List.flatten_cons]

-- ---------------------------------------------------------------------------
-- Preshared keys
-- ---------------------------------------------------------------------------

variable [Base64.Engine]

namespace WireguardPeerParsed

omit [Base64.Engine] in
theorem all_zero (key : Key) : key.bytes.all (· == 0) = true ↔ key = .zero := by
  constructor
  · intro h
    have hbytes : key.bytes = List.replicate key.bytes.length 0 :=
      List.eq_replicate_of_mem fun b hb => by simpa using List.all_eq_true.mp h b hb
    exact Key.ext (hbytes.trans (congrArg (List.replicate · 0) key.length_bytes))
  · rintro rfl
    decide

theorem read_presharedKey (ret : WireguardPeerParsed) (key : Key) :
    ret.read (.presharedKey key) =
      { ret with presharedKey := (some (encodeKey key)).filter (· ≠ encodeKey .zero) } := by
  have hzero : encodeKey key = encodeKey .zero ↔ key = .zero :=
    ⟨encodeKey_injective, congrArg encodeKey⟩
  simp only [read, all_zero, Option.filter_some, decide_not, Bool.not_eq_true',
    decide_eq_false_iff_not, hzero, ne_eq, ite_not]

end WireguardPeerParsed

-- ---------------------------------------------------------------------------
-- Reading messages
-- ---------------------------------------------------------------------------

namespace WireguardParsed

def readPeers (peers : List WireguardPeerParsed) (entries : List WireguardPeer) :
    List WireguardPeerParsed :=
  (entries.map .ofPeer).foldl WireguardPeerParsed.merging.push peers

theorem readPeers_append (peers : List WireguardPeerParsed) (entries more : List WireguardPeer) :
    readPeers peers (entries ++ more) = readPeers (readPeers peers entries) more := by
  rw [readPeers, List.map_append, List.foldl_append]
  rfl

theorem read_peers (ret : WireguardParsed) (entries : List WireguardPeer) :
    ret.read (.peers entries) = { ret with peers := some (readPeers (ret.peers.getD []) entries) } := by
  simp [read, readPeers, WireguardPeerParsed.pushPeer_eq, List.foldl_map]

/-- Reading the attribute once more changes nothing. -/
def Knows (ret : WireguardParsed) (attr : WireguardAttribute) : Prop :=
  ∀ peers, { ret with peers := peers }.read attr = { ret with peers := peers }

theorem foldl_read_knows {ret : WireguardParsed} {attrs : List WireguardAttribute}
    (h : ∀ attr ∈ attrs, ret.Knows attr) (peers : Option (List WireguardPeerParsed)) :
    attrs.foldl read { ret with peers := peers } = { ret with peers := peers } :=
  Folds.foldl_fixed fun attr hattr => h attr hattr peers

/-- Messages which bring nothing new but peers. -/
theorem foldl_readMessage_peers (ret : WireguardParsed) {bins : List (List WireguardPeer)}
    (hms : List.Forall₂ (fun m bin => ∃ attrs, m.attributes = attrs ++ [.peers bin] ∧
      ∀ attr ∈ attrs, ret.Knows attr) ms bins)
    (peers : List WireguardPeerParsed) :
    ms.foldl readMessage { ret with peers := some peers } =
      { ret with peers := some (readPeers peers bins.flatten) } := by
  induction hms generalizing peers with
  | nil => rfl
  | @cons m bin ms bins hm _ ih =>
    obtain ⟨attrs, hm, hattrs⟩ := hm
    have hread : readMessage { ret with peers := some peers } m =
        { ret with peers := some (readPeers peers bin) } := by
      rw [readMessage, hm, List.foldl_append, foldl_read_knows hattrs]
      exact read_peers _ bin
    rw [List.foldl_cons, hread, ih, List.flatten_cons, readPeers_append]

end WireguardParsed

end NlWireguard
