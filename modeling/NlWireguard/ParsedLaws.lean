import NlWireguard.PeerLaws

/-!
# What building a configuration yields

`buildMessages_ok` says when a configuration is accepted and which messages it
becomes: one packing of the chunks of all peers instead of the loop which
closes a message when the next chunk does not fit.
-/

namespace NlWireguard.WireguardParsed

open ExceptLaws

variable [Base64.Engine]

-- ---------------------------------------------------------------------------
-- Device attributes
-- ---------------------------------------------------------------------------

structure Keys where
  publicKey : Option Key
  privateKey : Option Key

/-- The device properties pass all checks; the interface is sent as `iface`. -/
structure Accepted (c : WireguardParsed) (iface : WireguardAttribute) (keys : Keys) : Prop where
  iface : c.ifaceAttribute = .ok iface
  publicKey : c.publicKey = keys.publicKey.map encodeKey
  privateKey : c.privateKey = keys.privateKey.map encodeKey

def attributes (c : WireguardParsed) (iface : WireguardAttribute) (keys : Keys) :
    List WireguardAttribute :=
  [iface] ++ emit keys.publicKey .publicKey ++ emit keys.privateKey .privateKey ++
    emit c.listenPort .listenPort ++ emit c.fwmark .fwmark ++
    emit c.flags fun flags => .flags (WireguardParsedDeviceFlags.bitsOf flags)

theorem deviceAttributes_ok {c : WireguardParsed} : c.deviceAttributes = .ok attrs ↔
    ∃ iface keys, c.Accepted iface keys ∧ attrs = c.attributes iface keys := by
  simp only [deviceAttributes, bind_ok, emitM_decodeKey, pure_ok]
  constructor
  · rintro ⟨iface, hiface, _, ⟨pub, hpub, rfl⟩, _, ⟨priv, hpriv, rfl⟩, rfl⟩
    exact ⟨iface, ⟨pub, priv⟩, ⟨hiface, hpub, hpriv⟩, rfl⟩
  · rintro ⟨iface, ⟨pub, priv⟩, h, rfl⟩
    exact ⟨iface, h.iface, _, ⟨pub, h.publicKey, rfl⟩, _, ⟨priv, h.privateKey, rfl⟩, rfl⟩

theorem deviceAttributes_eq {c : WireguardParsed} (h : c.Accepted iface keys) :
    c.deviceAttributes = .ok (c.attributes iface keys) :=
  deviceAttributes_ok.mpr ⟨iface, keys, h, rfl⟩

omit [Base64.Engine] in
theorem ifaceAttribute_cases {c : WireguardParsed} (h : c.ifaceAttribute = .ok iface) :
    (∃ name, c.ifaceName = some name ∧ iface = .ifName name ∧ name.utf8ByteSize < ifnamsiz ∧
      Char.ofNat 0 ∉ name.toList) ∨
    (∃ index, c.ifaceName = none ∧ c.ifaceIndex = some index ∧ iface = .ifIndex index) := by
  unfold ifaceAttribute at h
  split at h
  · rename_i name hname
    split at h
    · simp at h
    · rename_i hlen
      split at h
      · simp at h
      · rename_i hnul
        exact .inl ⟨name, hname, (Except.ok.inj h).symm, Nat.not_le.mp hlen, hnul⟩
  · rename_i index hname hindex
    exact .inr ⟨index, hname, hindex, (Except.ok.inj h).symm⟩
  · simp at h

omit [Base64.Engine] in
theorem ifaceAttribute_name {c : WireguardParsed} (hname : c.ifaceName = some name)
    (hlen : name.utf8ByteSize < ifnamsiz) (hnul : Char.ofNat 0 ∉ name.toList) :
    c.ifaceAttribute = .ok (.ifName name) := by
  simp [ifaceAttribute, hname, Nat.not_le.mpr hlen, hnul]

-- ---------------------------------------------------------------------------
-- Messages
-- ---------------------------------------------------------------------------

/-- A message which holds `bin`, with all device attributes or with the
interface alone. -/
def message (c : WireguardParsed) (cmd : WireguardCmd) (iface : WireguardAttribute) (keys : Keys)
    (first : Bool) (bin : List WireguardPeer) : WireguardMessage :=
  let attrs := if first then c.attributes iface keys else [iface]
  ⟨cmd, if c.peers.isSome then attrs ++ [.peers bin] else attrs⟩

theorem buildMessage_eq {c : WireguardParsed} (h : c.Accepted iface keys) (cmd : WireguardCmd)
    (first : Bool) (bin : List WireguardPeer) :
    c.buildMessage cmd first bin = .ok (c.message cmd iface keys first bin) := by
  unfold buildMessage message
  cases first
  · simp [h.iface, List.singleton, pure, Except.pure]
  · simp [deviceAttributes_eq h, pure, Except.pure]

/-- The messages for a list of bins. -/
def render (c : WireguardParsed) (cmd : WireguardCmd) (iface : WireguardAttribute) (keys : Keys)
    (first : Bool) : List (List WireguardPeer) → List WireguardMessage
  | [] => []
  | bin :: bins =>
    c.message cmd iface keys first bin :: bins.map (c.message cmd iface keys false)

omit [Base64.Engine] in
theorem render_false (c : WireguardParsed) (cmd : WireguardCmd) (iface : WireguardAttribute)
    (keys : Keys) (bins : List (List WireguardPeer)) :
    c.render cmd iface keys false bins = bins.map (c.message cmd iface keys false) := by
  cases bins <;> rfl

/-- The chunks of each message: there is always a first one. -/
def bins (chunks : List WireguardPeer) : List (List WireguardPeer) :=
  if chunks = [] then [[]] else NextFit.pack bufferLen maxNlaValueLen 0 0 [] chunks

def messages (c : WireguardParsed) (cmd : WireguardCmd) (iface : WireguardAttribute) (keys : Keys)
    (chunks : List WireguardPeer) : List WireguardMessage :=
  c.render cmd iface keys true (bins chunks)

/-- The open message, as the bins it will be: none if it is empty. -/
def Splitter.open (s : Splitter) : List (List WireguardPeer) := if s.peers = [] then [] else [s.peers]

theorem foldlM_pushChunk {c : WireguardParsed} (h : c.Accepted iface keys) (cmd : WireguardCmd)
    (s : Splitter) (chunks : List WireguardPeer) :
    ∃ s' : Splitter, chunks.foldlM (c.pushChunk cmd) s = .ok s' ∧
      s'.messages ++ c.render cmd iface keys s'.messages.isEmpty (Splitter.open s') =
        s.messages ++ c.render cmd iface keys s.messages.isEmpty
          (NextFit.pack bufferLen maxNlaValueLen 0 s.peersLen s.peers chunks) := by
  induction chunks generalizing s with
  | nil => exact ⟨s, rfl, rfl⟩
  | cons chunk chunks ih =>
    simp only [List.foldlM_cons, pushChunk, flush, buildMessage_eq h, NextFit.pack]
    by_cases hfull : s.peers ≠ [] ∧ maxNlaValueLen < s.peersLen + bufferLen chunk
    · -- The open message is closed; what follows goes into messages after it.
      simp only [if_pos hfull, ok_bind, pure, Except.pure]
      obtain ⟨s', hs', heq⟩ := ih _
      refine ⟨s', hs', heq.trans ?_⟩
      have hfalse : (s.messages ++ [c.message cmd iface keys s.messages.isEmpty s.peers]).isEmpty =
          false := by simp
      simp only [hfalse, render_false]
      simp [render]
    · simp only [if_neg hfull, ok_bind, pure, Except.pure]
      obtain ⟨s', hs', heq⟩ := ih _
      exact ⟨s', hs', heq⟩

theorem flush_accepted {c : WireguardParsed} {s : Splitter} (h : c.flush cmd s = .ok s') :
    s.messages ≠ [] ∨ ∃ iface keys, c.Accepted iface keys := by
  by_cases hm : s.messages = []
  · right
    simp only [flush, hm, List.isEmpty_nil, buildMessage, ↓reduceIte, bind_ok] at h
    obtain ⟨_, ⟨attrs, hattrs, -⟩, -⟩ := h
    obtain ⟨iface, keys, haccepted, -⟩ := deviceAttributes_ok.mp hattrs
    exact ⟨iface, keys, haccepted⟩
  · exact .inl hm

/-- A closed message is only there when the device attributes were accepted. -/
theorem pushChunk_accepted {c : WireguardParsed} {s s' : Splitter}
    (hs : s.messages ≠ [] → ∃ iface keys, c.Accepted iface keys)
    (h : c.pushChunk cmd s chunk = .ok s') :
    s'.messages ≠ [] → ∃ iface keys, c.Accepted iface keys := by
  unfold pushChunk at h
  by_cases hfull : s.peers ≠ [] ∧ maxNlaValueLen < s.peersLen + bufferLen chunk
  · simp only [if_pos hfull, bind_ok, pure_ok] at h
    obtain ⟨t, ht, rfl⟩ := h
    exact fun _ => (flush_accepted ht).elim hs id
  · simp only [if_neg hfull, pure_bind, pure_ok] at h
    exact h ▸ hs

theorem finish_eq {c : WireguardParsed} {s : Splitter} (h : c.Accepted iface keys)
    (hs : s.messages ++ c.render cmd iface keys s.messages.isEmpty (Splitter.open s) =
      c.render cmd iface keys true (NextFit.pack bufferLen maxNlaValueLen 0 0 [] chunks)) :
    (do
      let s ← if s.peers ≠ [] ∨ s.messages = [] then c.flush cmd s else pure s
      return s.messages) = Except.ok (c.messages cmd iface keys chunks) := by
  by_cases hchunks : chunks = []
  · -- No chunk at all: the loop left the state empty.
    subst hchunks
    obtain ⟨hmessages, hopen⟩ := List.append_eq_nil_iff.mp hs
    have hpeers : s.peers = [] := by
      by_contra hne
      simp [Splitter.open, hne, render] at hopen
    simp [hmessages, hpeers, flush, buildMessage_eq h, messages, bins, render, pure, Except.pure]
  · rw [messages, bins, if_neg hchunks, ← hs]
    by_cases hpeers : s.peers = []
    · have hmessages : s.messages ≠ [] := by
        intro hnil
        have hpacked : NextFit.pack bufferLen maxNlaValueLen 0 0 [] chunks ≠ [] :=
          NextFit.pack_ne_nil hchunks
        obtain ⟨bin, more, hpack⟩ := List.exists_cons_of_ne_nil hpacked
        simp [hnil, hpeers, Splitter.open, render, hpack] at hs
      simp [hpeers, hmessages, Splitter.open, render, pure, Except.pure]
    · simp [hpeers, flush, buildMessage_eq h, Splitter.open, render, pure, Except.pure]

/-- A configuration is built whenever its device properties and all its peers
are accepted, into these messages. -/
theorem buildMessages_ok {c : WireguardParsed} : c.buildMessages cmd = .ok ms ↔
    ∃ iface keys groups, c.Accepted iface keys ∧ (c.peers.getD []).mapM peerChunks = .ok groups ∧
      ms = c.messages cmd iface keys groups.flatten := by
  have hloop (s : Splitter) : (c.peers.getD []).foldlM (c.pushPeerChunks cmd) {} = .ok s ↔
      ∃ groups, (c.peers.getD []).mapM peerChunks = .ok groups ∧
        groups.flatten.foldlM (c.pushChunk cmd) {} = .ok s := foldlM_flatten_ok
  have hrun {iface keys} (h : c.Accepted iface keys) (groups : List (List WireguardPeer)) :
      ∃ s, groups.flatten.foldlM (c.pushChunk cmd) {} = .ok s ∧
        (do
          let s ← if s.peers ≠ [] ∨ s.messages = [] then c.flush cmd s else pure s
          return s.messages) = Except.ok (c.messages cmd iface keys groups.flatten) := by
    obtain ⟨s, hs, heq⟩ := foldlM_pushChunk h cmd {} groups.flatten
    exact ⟨s, hs, finish_eq h heq⟩
  constructor
  · intro h
    obtain ⟨s, hs, hend⟩ := bind_ok.mp h
    obtain ⟨groups, hgroups, hfold⟩ := (hloop s).mp hs
    have hinv : s.messages ≠ [] → ∃ iface keys, c.Accepted iface keys := by
      refine foldlM_invariant (fun t _ _ ht => pushChunk_accepted ht) ?_ hfold
      exact fun hne => absurd rfl hne
    have hacc : ∃ iface keys, c.Accepted iface keys := by
      by_cases hm : s.messages = []
      · rw [if_pos (.inr hm), bind_ok] at hend
        obtain ⟨_, hflush, -⟩ := hend
        exact (flush_accepted hflush).elim (absurd hm) id
      · exact hinv hm
    obtain ⟨iface, keys, hacc⟩ := hacc
    obtain ⟨t, ht, hfin⟩ := hrun hacc groups
    obtain rfl : s = t := Except.ok.inj (hfold.symm.trans ht)
    exact ⟨iface, keys, groups, hacc, hgroups, Except.ok.inj (hend.symm.trans hfin)⟩
  · rintro ⟨iface, keys, groups, hacc, hgroups, rfl⟩
    obtain ⟨s, hfold, hfin⟩ := hrun hacc groups
    have hs := (hloop s).mpr ⟨groups, hgroups, hfold⟩
    exact bind_ok.mpr ⟨s, hs, hfin⟩

/-- A configuration which passes all checks. -/
structure Plan (c : WireguardParsed) where
  iface : WireguardAttribute
  keys : Keys
  accepted : c.Accepted iface keys
  entries : List WireguardPeerParsed.Checked
  peers_eq : c.peers.getD [] = entries.map (·.peer)

namespace Plan

variable {c : WireguardParsed}

def chunks (plan : c.Plan) : List WireguardPeer := (plan.entries.map (·.chunks)).flatten

def messages (plan : c.Plan) (cmd : WireguardCmd) : List WireguardMessage :=
  c.messages cmd plan.iface plan.keys plan.chunks

end Plan

theorem buildMessages_plan {c : WireguardParsed} :
    c.buildMessages cmd = .ok ms ↔ ∃ plan : c.Plan, ms = plan.messages cmd := by
  rw [buildMessages_ok]
  constructor
  · rintro ⟨iface, keys, groups, haccepted, hgroups, rfl⟩
    obtain ⟨entries, hpeers, rfl⟩ := WireguardPeerParsed.mapM_peerChunks_ok.mp hgroups
    exact ⟨⟨iface, keys, haccepted, entries, hpeers⟩, rfl⟩
  · rintro ⟨plan, rfl⟩
    exact ⟨plan.iface, plan.keys, _, plan.accepted,
      WireguardPeerParsed.mapM_peerChunks_ok.mpr ⟨plan.entries, plan.peers_eq, rfl⟩, rfl⟩

def largeConfig (flags : List WireguardParsedPeerFlags) (count : Nat) : WireguardParsed where
  ifaceName := some "wg0"
  peers := some [.largePeer flags count]

def largePlan (flags : List WireguardParsedPeerFlags) (count : Nat) :
    (largeConfig flags count).Plan where
  iface := .ifName "wg0"
  keys := ⟨none, none⟩
  accepted := ⟨ifaceAttribute_name rfl (by decide +kernel) (by decide +kernel), rfl, rfl⟩
  entries := [.large flags count]
  peers_eq := rfl

theorem built_large (flags : List WireguardParsedPeerFlags) (count : Nat) (cmd : WireguardCmd) :
    (largeConfig flags count).buildMessages cmd = .ok ((largePlan flags count).messages cmd) :=
  buildMessages_plan.mpr ⟨_, rfl⟩

end NlWireguard.WireguardParsed
