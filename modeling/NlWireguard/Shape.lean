import NlWireguard.ParsedLaws

/-!
# The shape of the messages

What a configuration becomes on the wire, attribute by attribute: the state of
the device and of each peer is sent once, in the first message and in the
first chunk of the peer, and only the allowed IPs are spread over the rest.
-/

namespace NlWireguard

variable [Base64.Engine]

-- ---------------------------------------------------------------------------
-- Peers
-- ---------------------------------------------------------------------------

/-- The attributes of a peer which all of its chunks would share. -/
def WireguardPeer.state (peer : WireguardPeer) : List WireguardPeerAttribute :=
  peer.attributes.filter fun attr => !attr.isAllowedIps

def sentByPeer (value? : WireguardPeerAttribute → Option α) (group : List WireguardPeer) : List α :=
  group.flatMap fun chunk => chunk.attributes.filterMap value?

namespace WireguardPeerParsed

/-- The chunks of `p`, which builds as `built`. -/
inductive GroupShape (p : WireguardPeerParsed) (built : WireguardPeer) : List WireguardPeer → Prop
  | bare (h : p.allowedIps = none ∨ p.Removes) : GroupShape p built [⟨built.state⟩]
  | batched {rest : List (List WireguardAllowedIp)} (hips : p.allowedIps = some ips) (hkept : ¬p.Removes)
      (hkey : .publicKey key ∈ built.attributes) (hnonempty : ∀ batch ∈ rest, batch ≠ [])
      (hall : first ++ rest.flatten = ips.map WireguardIpAddress.toAllowedIp) :
      GroupShape p built (⟨built.state ++ [.allowedIps first]⟩ ::
        rest.map fun batch => ⟨[.publicKey key, .allowedIps batch]⟩)

omit [Base64.Engine] in
/-- What a further chunk does not hold is only sent in the first one. -/
theorem GroupShape.sent_eq {value? : WireguardPeerAttribute → Option α}
    (h : GroupShape p built group) (hkey : ∀ key, value? (.publicKey key) = none)
    (hips : ∀ ips, value? (.allowedIps ips) = none) :
    sentByPeer value? group = built.state.filterMap value? := by
  cases h with
  | bare h => simp [sentByPeer]
  | batched => simp [sentByPeer, hkey, hips, List.flatMap_map]

namespace Checked

theorem state_whole (e : Checked) : e.whole.state = e.peer.stateAttributes e.keys := by
  have hips : e.peer.ipAttributes.filter (fun attr => !attr.isAllowedIps) = [] := by
    cases hnone : e.peer.allowedIps <;>
      simp [ipAttributes, hnone, WireguardPeerAttribute.isAllowedIps]
  simp only [WireguardPeer.state, whole, attributes, List.filter_append, hips, stateAttributes,
    attributesBefore, attributesAfter]
  simp [filter_emit, WireguardPeerAttribute.isAllowedIps]

theorem publicKey_mem (e : Checked) : .publicKey e.keys.publicKey ∈ e.whole.attributes := by
  simp [whole, attributes, attributesBefore]

/-- A peer is sent bare, or its allowed IPs follow its state in batches. -/
theorem chunks_cases (e : Checked) :
    ((e.peer.allowedIps = none ∨ e.peer.Removes) ∧
      e.chunks = [⟨e.peer.stateAttributes e.keys⟩]) ∨
    ∃ (ips : List WireguardIpAddress) (first : List WireguardAllowedIp)
        (rest : List (List WireguardAllowedIp)),
      e.peer.allowedIps = some ips ∧ ¬e.peer.Removes ∧
      e.chunks = e.peer.firstChunk e.keys first :: rest.map (continuationChunk e.keys) ∧
      first ++ rest.flatten = ips.map WireguardIpAddress.toAllowedIp ∧
      ∀ batch ∈ rest, batch ≠ [] := by
  unfold chunks WireguardPeerParsed.chunks
  cases hips : e.peer.allowedIps with
  | none => exact .inl ⟨.inl rfl, rfl⟩
  | some ips =>
    by_cases hr : e.peer.Removes
    · exact .inl ⟨.inr hr, if_pos hr⟩
    · have hflatten : (e.peer.batches e.keys ips).flatten =
          ips.map WireguardIpAddress.toAllowedIp := NextFit.pack_flatten _ [] _
      have hnonempty : ∀ batch ∈ e.peer.batches e.keys ips, batch ≠ [] :=
        fun _ => NextFit.ne_nil_of_mem_pack
      simp only [if_neg hr]
      cases hbatches : e.peer.batches e.keys ips with
      | nil => exact .inr ⟨ips, [], [], rfl, hr, rfl, hbatches ▸ hflatten, by simp⟩
      | cons batch more =>
        rw [hbatches] at hflatten hnonempty
        exact .inr ⟨ips, batch, more, rfl, hr, rfl, hflatten,
          fun b hb => hnonempty b (List.mem_cons_of_mem _ hb)⟩

theorem chunks_shape (e : Checked) : GroupShape e.peer e.whole e.chunks := by
  rcases e.chunks_cases with ⟨hbare, h⟩ | ⟨ips, first, rest, hips, hkept, h, hall, hrest⟩
  · rw [h, ← e.state_whole]
    exact .bare hbare
  · rw [h, firstChunk, ← e.state_whole]
    exact .batched hips hkept e.publicKey_mem hrest hall

theorem presharedKeys_state (e : Checked) :
    (e.whole.state.filterMap WireguardPeerAttribute.presharedKey?).map encodeKey =
      e.peer.presharedKey.toList := by
  have hpsk := e.accepted.presharedKey
  rw [e.state_whole]
  cases hkey : e.keys.presharedKey <;>
    simp [stateAttributes, attributesBefore, attributesAfter, filterMap_emit, hkey, hpsk,
      WireguardPeerAttribute.presharedKey?, Function.comp_def, List.filterMap_cons]

theorem flags_state (e : Checked) :
    e.whole.state.filterMap WireguardPeerAttribute.flags? =
      e.peer.flags.toList.map WireguardParsedPeerFlags.bitsOf := by
  rw [e.state_whole]
  cases hflags : e.peer.flags <;>
    simp [stateAttributes, attributesBefore, attributesAfter, filterMap_emit, hflags,
      WireguardPeerAttribute.flags?, Function.comp_def, List.filterMap_cons]

end Checked

end WireguardPeerParsed

-- ---------------------------------------------------------------------------
-- Messages
-- ---------------------------------------------------------------------------

/-- All values of one kind in a sequence of messages. -/
def sent (value? : WireguardAttribute → Option α) (ms : List WireguardMessage) : List α :=
  ms.flatMap fun m => m.attributes.filterMap value?

namespace WireguardParsed

/-- The messages of `c`, whose interface is `iface`, with `first` in the first
message and `rest` in the others. -/
def shaped (c : WireguardParsed) (cmd : WireguardCmd) (iface : WireguardAttribute)
    (attrs : List WireguardAttribute) (first : List WireguardPeer)
    (rest : List (List WireguardPeer)) : List WireguardMessage :=
  ⟨cmd, attrs ++ emit c.peers fun _ => .peers first⟩ ::
    rest.map fun peers => ⟨cmd, [iface, .peers peers]⟩

omit [Base64.Engine] in
/-- What further messages do not hold is only sent in the first one. -/
theorem sent_shaped {c : WireguardParsed} {value? : WireguardAttribute → Option α}
    (hiface : value? iface = none) (hpeers : ∀ peers, value? (.peers peers) = none) :
    sent value? (c.shaped cmd iface attrs first rest) = attrs.filterMap value? := by
  cases hc : c.peers <;> simp [sent, shaped, hc, hiface, hpeers, List.flatMap_map]

omit [Base64.Engine] in
theorem peers_shaped {c : WireguardParsed} (hiface : iface.peers? = none)
    (hattrs : attrs.filterMap WireguardAttribute.peers? = []) (hnone : c.peers = none → first = []) :
    (sent WireguardAttribute.peers? (c.shaped cmd iface attrs first rest)).flatten =
      first ++ rest.flatten := by
  have hrest : (rest.map fun peers => WireguardMessage.mk cmd [iface, .peers peers]).flatMap
      (fun m => m.attributes.filterMap WireguardAttribute.peers?) = rest := by
    simp [List.flatMap_map, hiface]
  cases hc : c.peers with
  | none =>
    simp [sent, shaped, hc, hattrs, hrest, hnone hc]
  | some peers =>
    simp [sent, shaped, hc, hattrs, hrest]

namespace Plan

variable {c : WireguardParsed}

theorem iface_cases (plan : c.Plan) :
    (∃ name, plan.iface = .ifName name) ∨ ∃ index, plan.iface = .ifIndex index := by
  rcases ifaceAttribute_cases plan.accepted.iface with ⟨name, _, h, _⟩ | ⟨index, _, _, h⟩
  · exact .inl ⟨name, h⟩
  · exact .inr ⟨index, h⟩

theorem chunks_eq_nil (plan : c.Plan) (h : c.peers = none) : plan.chunks = [] := by
  have hentries : [] = plan.entries.map (·.peer) := by simpa [h] using plan.peers_eq
  simp [chunks, List.map_eq_nil_iff.mp hentries.symm]

theorem exists_bins (plan : c.Plan) : ∃ first rest, bins plan.chunks = first :: rest ∧
    (∀ bin ∈ rest, bin ≠ []) ∧ first ++ rest.flatten = plan.chunks := by
  unfold bins
  by_cases hnil : plan.chunks = []
  · exact ⟨[], [], by simp [hnil], by simp, by simp [hnil]⟩
  · have hflatten : (NextFit.pack bufferLen maxNlaValueLen 0 0 [] plan.chunks).flatten =
        plan.chunks := NextFit.pack_flatten 0 [] plan.chunks
    have hnonempty : ∀ bin ∈ NextFit.pack bufferLen maxNlaValueLen 0 0 [] plan.chunks, bin ≠ [] :=
      fun _ => NextFit.ne_nil_of_mem_pack
    rw [if_neg hnil]
    cases hpack : NextFit.pack bufferLen maxNlaValueLen 0 0 [] plan.chunks with
    | nil => exact absurd (by simpa [hpack] using hflatten.symm) hnil
    | cons first rest =>
      rw [hpack] at hflatten hnonempty
      exact ⟨first, rest, rfl, fun b hb => hnonempty b (List.mem_cons_of_mem _ hb), hflatten⟩

theorem messages_shaped (plan : c.Plan) (hbins : bins plan.chunks = first :: rest) :
    plan.messages cmd = c.shaped cmd plan.iface (c.attributes plan.iface plan.keys) first rest := by
  unfold messages WireguardParsed.messages
  rw [hbins]
  cases hc : c.peers with
  | none =>
    have hrest : rest = [] := by
      have hbins' : [[]] = first :: rest := by simpa [bins, plan.chunks_eq_nil hc] using hbins
      exact (List.cons.inj hbins').2.symm
    simp [render, shaped, message, hc, hrest]
  | some peers => simp [render, shaped, message, hc]

/-- The interface leads the device attributes and none of them repeats it. -/
theorem filter_iface (plan : c.Plan) :
    (c.attributes plan.iface plan.keys).filter WireguardAttribute.isIface = [plan.iface] := by
  have hiface : plan.iface.isIface = true := by
    rcases plan.iface_cases with ⟨_, h⟩ | ⟨_, h⟩ <;> rw [h] <;> rfl
  simp only [attributes, List.filter_append]
  rw [List.filter_cons_of_pos hiface, filter_emit_nil _ _ _ fun _ => rfl,
    filter_emit_nil _ _ _ fun _ => rfl, filter_emit_nil _ _ _ fun _ => rfl,
    filter_emit_nil _ _ _ fun _ => rfl, filter_emit_nil _ _ _ fun _ => rfl]
  rfl

theorem iface_none (plan : c.Plan) (value? : WireguardAttribute → Option α)
    (hname : ∀ name, value? (.ifName name) = none) (hindex : ∀ index, value? (.ifIndex index) = none) :
    value? plan.iface = none := by
  rcases plan.iface_cases with ⟨name, h⟩ | ⟨index, h⟩
  · exact h ▸ hname name
  · exact h ▸ hindex index

theorem filterMap_attributes (plan : c.Plan) (value? : WireguardAttribute → Option α)
    (hiface : value? plan.iface = none) :
    (c.attributes plan.iface plan.keys).filterMap value? =
      plan.keys.publicKey.toList.filterMap (value? ∘ .publicKey) ++
      plan.keys.privateKey.toList.filterMap (value? ∘ .privateKey) ++
      c.listenPort.toList.filterMap (value? ∘ .listenPort) ++
      c.fwmark.toList.filterMap (value? ∘ .fwmark) ++
      c.flags.toList.filterMap (value? ∘ fun flags =>
        .flags (WireguardParsedDeviceFlags.bitsOf flags)) := by
  simp [attributes, hiface, filterMap_emit]

theorem filterMap_peers (plan : c.Plan) :
    (c.attributes plan.iface plan.keys).filterMap WireguardAttribute.peers? = [] := by
  rw [plan.filterMap_attributes _ (plan.iface_none _ (fun _ => rfl) (fun _ => rfl))]
  simp [WireguardAttribute.peers?]

theorem sent_peers (plan : c.Plan) :
    (sent WireguardAttribute.peers? (plan.messages cmd)).flatten = plan.chunks := by
  obtain ⟨first, rest, hbins, -, hchunks⟩ := plan.exists_bins
  have hiface : plan.iface.peers? = none := plan.iface_none _ (fun _ => rfl) (fun _ => rfl)
  have hnone : c.peers = none → first = [] := fun hc =>
    (List.append_eq_nil_iff.mp (hchunks.trans (plan.chunks_eq_nil hc))).1
  rw [plan.messages_shaped hbins, peers_shaped hiface plan.filterMap_peers hnone, hchunks]

end Plan

theorem messages_ne_nil {c : WireguardParsed} (h : c.buildMessages cmd = .ok ms) : ms ≠ [] := by
  obtain ⟨plan, rfl⟩ := buildMessages_plan.mp h
  obtain ⟨first, rest, hbins, -, -⟩ := plan.exists_bins
  rw [plan.messages_shaped hbins]
  exact List.cons_ne_nil _ _

/-- The device attributes come first and once, further messages only name the
interface, and the peers of all messages are the chunks of the peers of the
configuration, in order. -/
def HasShape (c : WireguardParsed) (cmd : WireguardCmd) (ms : List WireguardMessage) : Prop :=
  ∃ iface attrs first rest groups,
    c.ifaceAttribute = .ok iface ∧ c.deviceAttributes = .ok attrs ∧
    attrs.filter WireguardAttribute.isIface = [iface] ∧
    ms = c.shaped cmd iface attrs first rest ∧ (∀ peers ∈ rest, peers ≠ []) ∧
    (sent WireguardAttribute.peers? ms).flatten = groups.flatten ∧
    List.Forall₂
      (fun p group => ∃ built, p.build = .ok built ∧ p.GroupShape built group ∧
        (sentByPeer WireguardPeerAttribute.presharedKey? group).map encodeKey =
          p.presharedKey.toList ∧
        sentByPeer WireguardPeerAttribute.flags? group =
          p.flags.toList.map WireguardParsedPeerFlags.bitsOf)
      (c.peers.getD []) groups ∧
    (sent WireguardAttribute.privateKey? ms).map encodeKey = c.privateKey.toList ∧
    sent WireguardAttribute.flags? ms = c.flags.toList.map WireguardParsedDeviceFlags.bitsOf

theorem buildMessages_shape {c : WireguardParsed} (h : c.buildMessages cmd = .ok ms) :
    c.HasShape cmd ms := by
  obtain ⟨plan, rfl⟩ := buildMessages_plan.mp h
  obtain ⟨first, rest, hbins, hrest, hchunks⟩ := plan.exists_bins
  have hshaped : plan.messages cmd =
      c.shaped cmd plan.iface (c.attributes plan.iface plan.keys) first rest :=
    plan.messages_shaped hbins
  refine ⟨plan.iface, _, first, rest, plan.entries.map (·.chunks), plan.accepted.iface,
    deviceAttributes_eq plan.accepted, plan.filter_iface, hshaped, hrest, ?_, ?_, ?_, ?_⟩
  · rw [plan.sent_peers]
    rfl
  · rw [plan.peers_eq, List.forall₂_map_left_iff, List.forall₂_map_right_iff, List.forall₂_same]
    intro e _
    have hshape : e.peer.GroupShape e.whole e.chunks := e.chunks_shape
    refine ⟨e.whole, e.build, hshape, ?_, ?_⟩
    · rw [hshape.sent_eq (fun _ => rfl) (fun _ => rfl), e.presharedKeys_state]
    · rw [hshape.sent_eq (fun _ => rfl) (fun _ => rfl), e.flags_state]
  · have hiface : plan.iface.privateKey? = none := plan.iface_none _ (fun _ => rfl) (fun _ => rfl)
    rw [hshaped, sent_shaped hiface (fun _ => rfl), plan.filterMap_attributes _ hiface,
      plan.accepted.privateKey]
    cases plan.keys.privateKey <;> simp [WireguardAttribute.privateKey?, Function.comp_def]
  · have hiface : plan.iface.flags? = none := plan.iface_none _ (fun _ => rfl) (fun _ => rfl)
    rw [hshaped, sent_shaped hiface (fun _ => rfl), plan.filterMap_attributes _ hiface]
    cases c.flags <;> simp [WireguardAttribute.flags?, Function.comp_def]

def sample : WireguardParsed where
  ifaceName := some "wg0"
  privateKey := some (encodeKey .zero)
  peers := some
    [{ publicKey := some (encodeKey .zero)
       lastHandshake := some ⟨1700000000, 5, by decide⟩
       allowedIps := some [⟨24, .v4 0x0a000000, none⟩]
       flags := some [.replaceAllowedIps] },
     .remove (encodeKey .zero)]

def sampleMessages : List WireguardMessage :=
  [⟨.setDevice, [.ifName "wg0", .privateKey .zero, .peers
    [⟨[.publicKey .zero, .lastHandshake ⟨1700000000, 5⟩, .flags .replaceAllowedIps,
      .allowedIps [⟨[.cidr 24, .family .ipv4, .ipAddr (.v4 0x0a000000)]⟩]]⟩,
     ⟨[.publicKey .zero, .flags .removeMe]⟩]]⟩]

omit [Base64.Engine] in
theorem buildMessages_shape_sample :
    @HasShape Base64.standard (@largeConfig Base64.standard [.replaceAllowedIps] 3000) .setDevice
      (@Plan.messages Base64.standard _ (@largePlan Base64.standard [.replaceAllowedIps] 3000)
        .setDevice) :=
  letI := Base64.standard
  buildMessages_shape (built_large [.replaceAllowedIps] 3000 .setDevice)

end WireguardParsed

end NlWireguard
