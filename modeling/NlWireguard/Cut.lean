import NlWireguard.Reading

/-!
# Dumps cut by the kernel

The kernel answers a dump with as many messages as it likes: it cuts the list
of peers anywhere, and repeats a peer with its public key for more of its
allowed IPs. `ofMessages_cut` says that the result does not depend on the cut.

Nothing is assumed about the order of attributes. All that counts is that no
kind of attribute is repeated.
-/

namespace NlWireguard

open Folds

-- ---------------------------------------------------------------------------
-- Kinds of attributes
-- ---------------------------------------------------------------------------

def WireguardPeerAttribute.kind : WireguardPeerAttribute → UInt16
  | publicKey _ => 1
  | presharedKey _ => 2
  | flags _ => 3
  | endpoint _ => 4
  | persistentKeepalive _ => 5
  | lastHandshake _ => 6
  | rxBytes _ => 7
  | txBytes _ => 8
  | allowedIps _ => 9
  | protocolVersion _ => 10
  | other kind _ => kind

def WireguardAttribute.kind : WireguardAttribute → UInt16
  | ifIndex _ => 1
  | ifName _ => 2
  | privateKey _ => 3
  | publicKey _ => 4
  | flags _ => 5
  | listenPort _ => 6
  | fwmark _ => 7
  | peers _ => 8
  | other kind _ => kind

-- ---------------------------------------------------------------------------
-- Cuts
-- ---------------------------------------------------------------------------

/-- A peer as a group of chunks: one chunk for a peer without allowed IPs, else
a first chunk with all other attributes, and the allowed IPs in parts. The
first chunk may come without any if another one follows. -/
inductive PeerCut (peer : WireguardPeer) : List WireguardPeer → Prop
  | whole (h : ∀ attr ∈ peer.attributes, attr.allowedIps? = none) : PeerCut peer [peer]
  | parts {before after : List WireguardPeerAttribute} {ips : List WireguardAllowedIp} {key : Key}
      {first : WireguardPeer} {rest : List WireguardPeer} {part : Option (List WireguardAllowedIp)}
      {parts : List (List WireguardAllowedIp)}
      (hpeer : peer.attributes = before ++ .allowedIps ips :: after)
      (hkey : .publicKey key ∈ peer.attributes)
      (hfirst : first.attributes.Perm (before ++ after ++ emit part .allowedIps))
      (hrest : List.Forall₂ (fun chunk part =>
        chunk.attributes.Perm [.publicKey key, .allowedIps part]) rest parts)
      (hparts : part.getD [] ++ parts.flatten = ips) (hsome : part = none → parts ≠ []) :
      PeerCut peer (first :: rest)

/-- The message `u` with these peers, cut into several: its device attributes
are in the first one, the chunks of its peers are spread over all of them. As
long as no peer is complete, the kernel repeats device attributes. -/
inductive Cut (u : WireguardMessage) (peers : List WireguardPeer) : List WireguardMessage → Prop
  | intro {before after : List WireguardAttribute} {groups : List (List WireguardPeer)}
      {bin : List WireguardPeer} {bins : List (List WireguardPeer)}
      {first : WireguardMessage} {rest : List WireguardMessage}
      (hu : u.attributes = before ++ .peers peers :: after)
      (hgroups : List.Forall₂ PeerCut peers groups)
      (hbins : bin ++ bins.flatten = groups.flatten)
      (hfirst : first.attributes.Perm (before ++ after ++ [.peers bin]))
      (hrest : List.Forall₂ (fun m bin => ∃ again, m.attributes = again ++ [.peers bin] ∧
        ∀ attr ∈ again, attr ∈ before ++ after ∧ attr.flags? = none) rest bins) :
      Cut u peers (first :: rest)

/-- A dump in one message: no kind of attribute is repeated, every peer has a
public key, and neighbours have different ones. -/
structure Dump (u : WireguardMessage) (peers : List WireguardPeer) : Prop where
  kinds : (u.attributes.map WireguardAttribute.kind).Nodup
  peerKinds : ∀ peer ∈ peers, (peer.attributes.map WireguardPeerAttribute.kind).Nodup
  publicKey : ∀ peer ∈ peers, peer.publicKey?.isSome
  separate : peers.IsChain fun a b => a.publicKey? ≠ b.publicKey?

-- ---------------------------------------------------------------------------
-- Reading the pieces of a peer
-- ---------------------------------------------------------------------------

variable [Base64.Engine]

namespace WireguardPeerParsed

theorem read_comm (ret : WireguardPeerParsed) (a b : WireguardPeerAttribute) (h : a.kind ≠ b.kind) :
    (ret.read a).read b = (ret.read b).read a := by
  cases a <;> cases b <;> first | rfl | exact absurd rfl h

theorem ofPeer_perm (hperm : attrs.Perm other)
    (hkinds : (attrs.map WireguardPeerAttribute.kind).Nodup) :
    ofPeer ⟨attrs⟩ = ofPeer ⟨other⟩ :=
  foldl_perm_of_kinds read_comm hperm hkinds {}

theorem ofPeer_snoc (attrs : List WireguardPeerAttribute) (attr : WireguardPeerAttribute) :
    ofPeer ⟨attrs ++ [attr]⟩ = (ofPeer ⟨attrs⟩).read attr := by
  simp [ofPeer]

theorem ofPeer_publicKey (hkinds : (attrs.map WireguardPeerAttribute.kind).Nodup)
    (h : .publicKey key ∈ attrs) : (ofPeer ⟨attrs⟩).publicKey = some (encodeKey key) := by
  have hperm : attrs.Perm (attrs.erase (.publicKey key) ++ [.publicKey key]) :=
    (List.perm_cons_erase h).trans (List.perm_append_singleton _ _).symm
  rw [ofPeer_perm hperm hkinds, ofPeer_snoc]
  rfl

theorem read_allowedIps (ret : WireguardPeerParsed) (h : attr.allowedIps? = none) :
    (ret.read attr).allowedIps = ret.allowedIps := by
  cases attr <;> first | rfl | exact nomatch h

theorem ofPeer_allowedIps {attrs : List WireguardPeerAttribute}
    (h : ∀ attr ∈ attrs, attr.allowedIps? = none) : (ofPeer ⟨attrs⟩).allowedIps = none :=
  foldl_frame allowedIps (fun ret attr hattr => ret.read_allowedIps (h attr hattr)) {}

theorem ofPeer_further {chunk : WireguardPeer}
    (h : chunk.attributes.Perm [.publicKey key, .allowedIps part]) :
    ofPeer chunk = continuation (encodeKey key) (readIps part) := by
  have hkinds : (chunk.attributes.map WireguardPeerAttribute.kind).Nodup :=
    (h.map _).nodup_iff.mpr (by simp [WireguardPeerAttribute.kind])
  exact ofPeer_perm h hkinds

theorem map_ofPeer_further {rest : List WireguardPeer} (h : List.Forall₂
    (fun chunk part => chunk.attributes.Perm [.publicKey key, .allowedIps part]) rest parts) :
    rest.map ofPeer = (parts.map readIps).map (continuation (encodeKey key)) := by
  induction h with
  | nil => rfl
  | cons hchunk _ ih => rw [List.map_cons, ih, ofPeer_further hchunk, List.map_cons, List.map_cons]

/-- The attributes of a peer apart from its allowed IPs, and these last. -/
theorem ofPeer_emit {base : List WireguardPeerAttribute} {part : Option (List WireguardAllowedIp)}
    (hperm : attrs.Perm (base ++ emit part .allowedIps))
    (hkinds : ((base ++ [WireguardPeerAttribute.allowedIps ips]).map
      WireguardPeerAttribute.kind).Nodup) :
    ofPeer ⟨attrs⟩ = { ofPeer ⟨base⟩ with allowedIps := part.map readIps } := by
  rw [List.map_append] at hkinds
  have hnone : ∀ attr ∈ base, attr.allowedIps? = none := by
    intro attr hattr
    cases attr with
    | allowedIps other =>
      exact (List.disjoint_of_nodup_append hkinds (List.mem_map_of_mem hattr)
        (List.mem_singleton_self _)).elim
    | _ => rfl
  cases part with
  | none =>
    rw [emit_none, List.append_nil] at hperm
    have hbase : (base.map WireguardPeerAttribute.kind).Nodup := hkinds.of_append_left
    rw [ofPeer_perm hperm ((hperm.map _).nodup_iff.mpr hbase), Option.map_none,
      ← ofPeer_allowedIps hnone]
  | some part =>
    have hall : ((base ++ [WireguardPeerAttribute.allowedIps part]).map
        WireguardPeerAttribute.kind).Nodup := by
      rw [List.map_append]
      exact hkinds
    rw [ofPeer_perm hperm ((hperm.map _).nodup_iff.mpr hall), emit_some, ofPeer_snoc]
    rfl

/-- However a peer is cut, its chunks are read as pieces of it. -/
theorem pieces_of_cut (hkinds : (peer.attributes.map WireguardPeerAttribute.kind).Nodup)
    (hcut : PeerCut peer group) : merging.Pieces (ofPeer peer) (group.map ofPeer) := by
  cases hcut with
  | whole h => exact .intro (by simp) rfl
  | @parts before after ips key first rest part parts hpeer hkey hfirst hrest hparts hsome =>
    have hmiddle : peer.attributes.Perm (before ++ after ++ emit (some ips) .allowedIps) :=
      perm_middle_last hpeer
    have hnodup : ((before ++ after ++ [WireguardPeerAttribute.allowedIps ips]).map
        WireguardPeerAttribute.kind).Nodup := (hmiddle.map _).nodup_iff.mp hkinds
    have hpeer : ofPeer peer = { ofPeer ⟨before ++ after⟩ with allowedIps := some (readIps ips) } :=
      ofPeer_emit hmiddle hnodup
    have hfirst : ofPeer first =
        { ofPeer ⟨before ++ after⟩ with allowedIps := part.map readIps } :=
      ofPeer_emit hfirst hnodup
    have hbase : (ofPeer ⟨before ++ after⟩).publicKey = some (encodeKey key) := by
      have hkey := ofPeer_publicKey hkinds hkey
      change (ofPeer peer).publicKey = _ at hkey
      rwa [hpeer] at hkey
    have hjoin : joinParts (part.map readIps) (parts.map readIps) = some (readIps ips) := by
      rw [joinParts_eq, ← hparts, readIps_append, readIps_flatten]
      · cases part <;> rfl
      · intro hnone
        simpa using hsome (Option.map_eq_none_iff.mp hnone)
    rw [List.map_cons, map_ofPeer_further hrest]
    refine pieces_continuation (by rw [hfirst]; exact hbase) ?_
    rw [hfirst, hpeer, hjoin]

end WireguardPeerParsed

-- ---------------------------------------------------------------------------
-- Reading the messages of a dump
-- ---------------------------------------------------------------------------

namespace WireguardParsed

theorem read_comm (ret : WireguardParsed) (a b : WireguardAttribute) (h : a.kind ≠ b.kind) :
    (ret.read a).read b = (ret.read b).read a := by
  cases a <;> cases b <;> first | rfl | exact absurd rfl h

theorem readSingle_comm (ret : WireguardParsed) (a b : WireguardAttribute) (h : a.kind ≠ b.kind) :
    (ret.readSingle a).readSingle b = (ret.readSingle b).readSingle a := by
  cases a <;> cases b <;> first | rfl | exact absurd rfl h

/-- The two ways of reading an attribute differ for peers and for flags which
are not the first ones. -/
theorem readSingle_eq (ret : WireguardParsed) (hpeers : attr.peers? = none)
    (hflags : attr.flags?.isSome → ret.flags = none) : ret.readSingle attr = ret.read attr := by
  cases attr with
  | peers entries => exact nomatch hpeers
  | flags bits => simp [readSingle, read, hflags rfl]
  | _ => rfl

theorem knows_read (ret : WireguardParsed) (hpeers : attr.peers? = none)
    (hflags : attr.flags? = none) : (ret.read attr).Knows attr := by
  intro peers
  cases attr with
  | peers entries => exact nomatch hpeers
  | flags bits => exact nomatch hflags
  | _ => rfl

theorem foldl_read_peers {attrs : List WireguardAttribute}
    (h : ∀ attr ∈ attrs, attr.peers? = none) : (attrs.foldl read {}).peers = none := by
  refine foldl_frame peers (fun ret attr hattr => ?_) {}
  have hnone := h attr hattr
  cases attr <;> first | rfl | exact nomatch hnone

theorem foldl_read_flags {attrs : List WireguardAttribute}
    (h : ∀ attr ∈ attrs, attr.flags? = none) : (attrs.foldl read {}).flags = none := by
  refine foldl_frame flags (fun ret attr hattr => ?_) {}
  have hnone := h attr hattr
  cases attr <;> first | rfl | exact nomatch hnone

omit [Base64.Engine] in
theorem kind_of_flags {attr : WireguardAttribute} (h : attr.flags?.isSome) : attr.kind = 5 := by
  cases attr <;> first | rfl | simp [WireguardAttribute.flags?] at h

/-- Both ways of reading a message agree on everything but its peers. -/
theorem foldl_readSingle {attrs : List WireguardAttribute}
    (hkinds : (attrs.map WireguardAttribute.kind).Nodup)
    (hpeers : ∀ attr ∈ attrs, attr.peers? = none) :
    attrs.foldl readSingle {} = attrs.foldl read {} := by
  induction attrs using List.reverseRecOn with
  | nil => rfl
  | append_singleton attrs attr ih =>
    rw [List.map_append] at hkinds
    have hbefore : attrs.foldl readSingle {} = attrs.foldl read {} :=
      ih hkinds.of_append_left fun b hb => hpeers b (List.mem_append_left _ hb)
    have hflags : attr.flags?.isSome → (attrs.foldl read {}).flags = none := by
      intro hsome
      refine foldl_read_flags fun b hb => Option.not_isSome_iff_eq_none.mp fun hb' => ?_
      have hkind : b.kind = attr.kind := (kind_of_flags hb').trans (kind_of_flags hsome).symm
      exact List.disjoint_of_nodup_append hkinds (List.mem_map_of_mem hb) (by simp [hkind])
    rw [List.foldl_append, List.foldl_append, hbefore]
    exact readSingle_eq _ (hpeers attr (by simp)) hflags

end WireguardParsed

-- ---------------------------------------------------------------------------
-- Reading a dump
-- ---------------------------------------------------------------------------

namespace Dump

theorem ofPeer_publicKey (h : Dump u peers) (hpeer : peer ∈ peers) :
    (WireguardPeerParsed.ofPeer peer).publicKey = peer.publicKey?.map encodeKey := by
  obtain ⟨key, hkey⟩ := Option.isSome_iff_exists.mp (h.publicKey peer hpeer)
  rw [hkey]
  exact WireguardPeerParsed.ofPeer_publicKey (h.peerKinds peer hpeer) (peer.publicKey_mem hkey)

theorem readPeers (h : Dump u peers) :
    WireguardParsed.readPeers [] peers = peers.map .ofPeer := by
  rw [WireguardParsed.readPeers, WireguardPeerParsed.merging.foldl_push]
  refine WireguardPeerParsed.merging.coalesce_separate ?_
  rw [Coalesce.Mergeable.Separate, List.isChain_map]
  refine h.separate.imp_of_mem_imp fun a b ha hb hne hcont => hne ?_
  have heq : (WireguardPeerParsed.ofPeer a).publicKey = (WireguardPeerParsed.ofPeer b).publicKey :=
    hcont.2
  rw [h.ofPeer_publicKey ha, h.ofPeer_publicKey hb] at heq
  exact Option.map_injective (fun _ _ => encodeKey_injective) heq

theorem readPeers_groups (h : Dump u peers) (hgroups : List.Forall₂ PeerCut peers groups) :
    WireguardParsed.readPeers [] groups.flatten = peers.map .ofPeer := by
  have hpieces : List.Forall₂ WireguardPeerParsed.merging.Pieces (peers.map .ofPeer)
      (groups.map (·.map WireguardPeerParsed.ofPeer)) := by
    rw [List.forall₂_map_left_iff, List.forall₂_map_right_iff]
    refine ((List.forall₂_and_left peers groups).mpr ⟨h.peerKinds, hgroups⟩).imp ?_
    exact fun peer group hcut => WireguardPeerParsed.pieces_of_cut hcut.1 hcut.2
  rw [← h.readPeers, WireguardParsed.readPeers, List.map_flatten]
  exact WireguardPeerParsed.merging.foldl_push_groups hpieces []

variable {base : List WireguardAttribute}

omit [Base64.Engine] in
theorem kinds_base (h : Dump u peers) (hu : u.attributes.Perm (base ++ [.peers peers])) :
    (base.map WireguardAttribute.kind ++ [8]).Nodup := by
  have hnodup := (hu.map WireguardAttribute.kind).nodup_iff.mp h.kinds
  rwa [List.map_append] at hnodup

omit [Base64.Engine] in
theorem peers?_base (h : Dump u peers) (hu : u.attributes.Perm (base ++ [.peers peers])) :
    ∀ attr ∈ base, attr.peers? = none := by
  intro attr hattr
  cases attr with
  | peers entries =>
    exact (List.disjoint_of_nodup_append (h.kinds_base hu) (List.mem_map_of_mem hattr)
      (List.mem_singleton_self _)).elim
  | _ => rfl

theorem readMessage (h : Dump u peers) (hu : u.attributes.Perm (base ++ [.peers peers]))
    {bin : List WireguardPeer} (hm : m.attributes.Perm (base ++ [.peers bin])) :
    WireguardParsed.readMessage {} m =
      { base.foldl WireguardParsed.read {} with
        peers := some (WireguardParsed.readPeers [] bin) } := by
  have hkinds : (m.attributes.map WireguardAttribute.kind).Nodup := by
    rw [(hm.map _).nodup_iff, List.map_append]
    exact h.kinds_base hu
  rw [WireguardParsed.readMessage, foldl_perm_of_kinds WireguardParsed.read_comm hm hkinds,
    List.foldl_append, List.foldl_cons, List.foldl_nil, WireguardParsed.read_peers,
    WireguardParsed.foldl_read_peers (h.peers?_base hu)]
  rfl

theorem knows_base (h : Dump u peers) (hu : u.attributes.Perm (base ++ [.peers peers]))
    (hattr : attr ∈ base) (hflags : attr.flags? = none) :
    (base.foldl WireguardParsed.read {}).Knows attr := by
  have hperm : base.Perm (base.erase attr ++ [attr]) :=
    (List.perm_cons_erase hattr).trans (List.perm_append_singleton _ _).symm
  have hpeers : attr.peers? = none := h.peers?_base hu attr hattr
  rw [foldl_perm_of_kinds WireguardParsed.read_comm hperm (h.kinds_base hu).of_append_left,
    List.foldl_append]
  exact WireguardParsed.knows_read _ hpeers hflags

theorem ofMessage (h : Dump u peers) (hu : u.attributes.Perm (base ++ [.peers peers])) :
    WireguardParsed.ofMessage u =
      { base.foldl WireguardParsed.read {} with peers := some (peers.map .ofPeer) } := by
  have hbase : base.foldl WireguardParsed.readSingle {} = base.foldl WireguardParsed.read {} :=
    WireguardParsed.foldl_readSingle (h.kinds_base hu).of_append_left (h.peers?_base hu)
  rw [WireguardParsed.ofMessage, foldl_perm_of_kinds WireguardParsed.readSingle_comm hu h.kinds,
    List.foldl_append, hbase]
  rfl

theorem ofMessages_of_cut (h : Dump u peers) (hcut : Cut u peers ms) :
    WireguardParsed.ofMessages ms = WireguardParsed.ofMessage u := by
  cases hcut with
  | @intro before after _ _ bins _ rest hu hgroups hbins hfirst hrest =>
    have hperm : u.attributes.Perm (before ++ after ++ [.peers peers]) := perm_middle_last hu
    rw [WireguardParsed.ofMessages, List.foldl_cons, h.readMessage hperm hfirst]
    refine (WireguardParsed.foldl_readMessage_peers _ (hrest.imp ?_) _).trans ?_
    · rintro m bin ⟨again, hm, hagain⟩
      refine ⟨again, hm, fun attr hattr => ?_⟩
      obtain ⟨hmem, hflags⟩ := hagain attr hattr
      exact h.knows_base hperm hmem hflags
    rw [← WireguardParsed.readPeers_append, hbins, h.readPeers_groups hgroups, h.ofMessage hperm]

end Dump

namespace WireguardParsed

/-- Whatever the cut, the replies are read like the whole dump in one message. -/
theorem ofMessages_cut {peers : List WireguardPeer} (h : Dump u peers) (hcut : Cut u peers ms) :
    ofMessages ms = ofMessage u ∧ ofMessages ms = ofMessages [u] := by
  refine ⟨h.ofMessages_of_cut hcut, ?_⟩
  have hsingle : ofMessages [u] = ofMessage u := by
    obtain ⟨hu, -, -, -, -⟩ := hcut
    have hperm := perm_middle_last hu
    rw [h.ofMessage hperm, ofMessages, List.foldl_cons, List.foldl_nil, h.readMessage hperm hperm,
      h.readPeers]
  rw [h.ofMessages_of_cut hcut, hsingle]

def sampleKey : Key := ⟨List.replicate wgKeyLen 1, by simp⟩

def sampleNetwork (octets : BitVec 32) : WireguardAllowedIp :=
  ⟨[.family .ipv4, .ipAddr (.v4 octets), .cidr 24]⟩

def samplePeer : WireguardPeer :=
  ⟨[.publicKey .zero, .rxBytes 3, .allowedIps [sampleNetwork 0x0a000000, sampleNetwork 0x0a000100]]⟩

def samplePeers : List WireguardPeer := [samplePeer, ⟨[.publicKey sampleKey]⟩]

def sampleDump : WireguardMessage := ⟨.getDevice, [.ifIndex 7, .peers samplePeers, .ifName "wg0"]⟩

/-- The first peer is cut after its first network. -/
def sampleReplies : List WireguardMessage :=
  [⟨.getDevice, [.ifIndex 7, .ifName "wg0",
    .peers [⟨[.publicKey .zero, .rxBytes 3, .allowedIps [sampleNetwork 0x0a000000]]⟩]]⟩,
   ⟨.getDevice,
    [.peers [⟨[.publicKey .zero, .allowedIps [sampleNetwork 0x0a000100]]⟩, ⟨[.publicKey sampleKey]⟩]]⟩]

omit [Base64.Engine] in
theorem dump_sample : Dump sampleDump samplePeers where
  kinds := by decide +kernel
  peerKinds := by decide +kernel
  publicKey := by decide +kernel
  separate := by decide +kernel

omit [Base64.Engine] in
theorem cut_sample : Cut sampleDump samplePeers sampleReplies :=
  have hcut : PeerCut samplePeer
      [⟨[.publicKey .zero, .rxBytes 3, .allowedIps [sampleNetwork 0x0a000000]]⟩,
       ⟨[.publicKey .zero, .allowedIps [sampleNetwork 0x0a000100]]⟩] :=
    @PeerCut.parts _ [.publicKey .zero, .rxBytes 3] [] _ .zero _ _
      (some [sampleNetwork 0x0a000000]) [[sampleNetwork 0x0a000100]] rfl (by decide) (.refl _)
      (.cons (.refl _) .nil) rfl (fun h => nomatch h)
  @Cut.intro _ _ [.ifIndex 7] [.ifName "wg0"] _ [_] [[_, _]] _ _ rfl
    (.cons hcut (.cons (.whole (by decide)) .nil)) rfl (.refl _)
    (.cons ⟨[], rfl, by simp⟩ .nil)

omit [Base64.Engine] in
theorem ofMessages_cut_sample :
    @ofMessages Base64.standard sampleReplies = @ofMessage Base64.standard sampleDump ∧
      @ofMessages Base64.standard sampleReplies = @ofMessages Base64.standard [sampleDump] :=
  @ofMessages_cut Base64.standard sampleDump sampleReplies samplePeers dump_sample cut_sample

end WireguardParsed

end NlWireguard
