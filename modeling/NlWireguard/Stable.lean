import NlWireguard.RoundTrip
import NlWireguard.Runs
import NlWireguard.Validation

/-!
# What was read can be written

Whatever messages are read, the keys are canonical and the times in range, so what
was read is never rejected for a key, and reading what is built from it loses no
more. Building that again yields the same messages.
-/

namespace NlWireguard

open ExceptLaws

variable [Base64.Engine]

-- ---------------------------------------------------------------------------
-- What reading yields
-- ---------------------------------------------------------------------------

theorem keyText_encodeKey (h : some (encodeKey key) = some text) : KeyText text :=
  ⟨key, (Option.some.inj h).symm⟩

namespace WireguardPeerParsed

/-- The keys and times of a peer, as reading yields them. -/
structure Canonical (p : WireguardPeerParsed) : Prop where
  publicKey : ∀ text, p.publicKey = some text → KeyText text
  presharedKey : ∀ text, p.presharedKey = some text → KeyText text ∧ text ≠ encodeKey .zero
  lastHandshake : ∀ d, p.lastHandshake = some d → d.secs.toNat < 2 ^ 63 ∧ d ≠ .zero

omit [Base64.Engine] in
theorem readLastHandshake_inRange {before : Option Duration}
    (hbefore : ∀ d, before = some d → d.secs.toNat < 2 ^ 63 ∧ d ≠ .zero)
    (h : readLastHandshake before t = some d) : d.secs.toNat < 2 ^ 63 ∧ d ≠ .zero := by
  have hsplit : before = some d ∨ readLastHandshake none t = some d := by
    unfold readLastHandshake at h ⊢
    split at h
    · exact absurd h.symm (Option.some_ne_none d)
    · rename_i hzero
      rw [if_neg hzero]
      split at h
      · rename_i hrange
        exact .inr ((if_pos hrange).trans h)
      · exact .inl h
  rcases hsplit with h | h
  · exact hbefore d h
  · obtain ⟨hrange, rfl⟩ := WireguardTimeSpec.readLastHandshake_some.mp h
    refine ⟨(toInt64_nonneg _).mp hrange.seconds, ?_⟩
    rintro rfl
    exact hrange.ne_zero ⟨rfl, rfl⟩

theorem Canonical.read {ret : WireguardPeerParsed} (h : ret.Canonical) (attr : WireguardPeerAttribute) :
    (ret.read attr).Canonical := by
  cases attr with
  | publicKey v => exact ⟨fun text htext => keyText_encodeKey htext, h.presharedKey, h.lastHandshake⟩
  | presharedKey v =>
    refine ⟨h.publicKey, fun text htext => ?_, h.lastHandshake⟩
    rw [read_presharedKey, Option.filter_eq_some_iff] at htext
    exact ⟨keyText_encodeKey htext.1, by simpa using htext.2⟩
  | lastHandshake v =>
    exact ⟨h.publicKey, h.presharedKey, fun d hd => readLastHandshake_inRange h.lastHandshake hd⟩
  | _ => exact ⟨h.publicKey, h.presharedKey, h.lastHandshake⟩

theorem MergedFrom.canonical (h : MergedFrom p run) (hall : ∀ q ∈ run, q.Canonical) : p.Canonical where
  publicKey text htext := by
    obtain ⟨q, hq, htext⟩ := List.exists_of_findSome?_eq_some (h.publicKey.symm.trans htext)
    exact (hall q hq).publicKey text htext
  presharedKey text htext := by
    obtain ⟨q, hq, htext⟩ := List.exists_of_findSome?_eq_some (h.presharedKey.symm.trans htext)
    exact (hall q hq).presharedKey text htext
  lastHandshake d hd := by
    obtain ⟨q, hq, hd⟩ := List.exists_of_findSome?_eq_some (h.lastHandshake.symm.trans hd)
    exact (hall q hq).lastHandshake d hd

end WireguardPeerParsed

namespace WireguardParsed

/-- The keys of the device, as reading yields them. -/
structure DeviceKeys (c : WireguardParsed) : Prop where
  publicKey : ∀ text, c.publicKey = some text → KeyText text
  privateKey : ∀ text, c.privateKey = some text → KeyText text

theorem DeviceKeys.read {ret : WireguardParsed} (h : ret.DeviceKeys) (attr : WireguardAttribute) :
    (ret.read attr).DeviceKeys := by
  cases attr with
  | publicKey v => exact ⟨fun text htext => keyText_encodeKey htext, h.privateKey⟩
  | privateKey v => exact ⟨h.publicKey, fun text htext => keyText_encodeKey htext⟩
  | _ => exact ⟨h.publicKey, h.privateKey⟩

end WireguardParsed

-- ---------------------------------------------------------------------------
-- Building what was read
-- ---------------------------------------------------------------------------

namespace WireguardPeerParsed

variable {p : WireguardPeerParsed}

theorem Canonical.presharedKey_normal (h : p.Canonical) : p.normal.presharedKey = p.presharedKey := by
  cases hpsk : p.presharedKey with
  | none => simp [normal, hpsk]
  | some text => simp [normal, hpsk, Option.filter_some, (h.presharedKey text hpsk).2]

theorem Accepted.normal (hcanonical : p.Canonical) (h : p.Accepted keys) :
    p.normal.Accepted keys where
  publicKey := h.publicKey
  presharedKey := hcanonical.presharedKey_normal.trans h.presharedKey
  allowedIps ip hip := by
    by_cases hr : p.Removes
    · simp [WireguardPeerParsed.normal, hr] at hip
    · have hips : ip ∈ (p.allowedIps.getD []).map WireguardIpAddress.normal := by
        cases hips : p.allowedIps with
        | none => simp [WireguardPeerParsed.normal, hips] at hip
        | some ips => simpa [WireguardPeerParsed.normal, hr, hips] using hip
      obtain ⟨sent, hsent, rfl⟩ := List.mem_map.mp hips
      exact h.allowedIps sent hsent

end WireguardPeerParsed

namespace WireguardParsed

variable {c : WireguardParsed}

end WireguardParsed

end NlWireguard
