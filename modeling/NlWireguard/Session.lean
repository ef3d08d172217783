import NlWireguard.Observed

/-!
# Sessions

What the crate is for, without messages: a device which is configured, loses
peers and is reported. Any sequence of calls over a link to a kernel is a run of
this model, whatever fails in between. A call which reports success without
having been confirmed by the kernel promises no more than a failed one.
-/

namespace NlWireguard

-- ---------------------------------------------------------------------------
-- Calls
-- ---------------------------------------------------------------------------

variable [Base64.Engine]

variable {K : Kernel} {D E : Device} {link : Link} {device : List NetlinkMessage → Device}

/-- The link is served by a kernel with one interface, which also answers dumps. -/
structure Link.Hosts (link : Link) (K : Kernel) (device : List NetlinkMessage → Device) : Prop
    extends link.Serves K device where
  kept : ∀ sent ifaceName, device (sent ++ [dumpRequest ifaceName]) = device sent
  /-- A dump which comes to its end, and does not fail, is a whole one of the interface. -/
  dumped : ∀ sent ifaceName replies, link sent (dumpRequest ifaceName) = .ok replies →
    (∃ reply ∈ replies, Reply.IsDone reply) → (∀ reply ∈ replies, ¬Reply.Fails reply) →
    ifaceName = (device sent).ifName ∧ K.Dumps (device sent) (replies.filterMap Reply.inner?)

omit [Base64.Engine] in
theorem Link.Hosts.after (h : link.Hosts K device) (before : List NetlinkMessage) :
    (link.after before).Hosts K fun sent => device (before ++ sent) where
  toServes := h.toServes.after before
  kept sent ifaceName := by
    rw [← List.append_assoc]
    exact h.kept (before ++ sent) ifaceName
  dumped sent ifaceName := h.dumped (before ++ sent) ifaceName

variable [OsError]

end NlWireguard
